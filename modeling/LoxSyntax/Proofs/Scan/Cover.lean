/-
# LoxSyntax.Proofs.Scan.Cover -- a source is covered by its pieces, and read as them

The pieces of a source COVER it: each obeys the rule of its shape where it stands, and one begins where
the one before it ends. No other list of pieces does (`covers_iff`).

What a piece is READ AS is settled by its shape and its characters: a kind and a value for the pieces that
are tokens, a code and a message for those that are at fault, nothing for blanks, line feeds and comments.
The tokens and the diagnostics of a source are those of its pieces, one for one and in order.
-/
import LoxSyntax.Proofs.Scan.Shape
import LoxSyntax.Scan.Basic
import Mathlib.Data.List.Forall2

namespace LoxSyntax.Scan

open Number (Decimal isDigit)

variable {p : Piece} {ps : List Piece} {text rest : List Char} {line offset : Nat}

/-! ## Covering -/

theorem covers_pieces (text : List Char) : Covers (pieces text) text := by
  fun_induction pieces text with
  | case1 => exact .nil
  | case2 c rest ih =>
      have hmunch : Munch (pieceAt c rest).shape (pieceAt c rest).chars
          (rest.drop (shapeAt c rest).2) := munch_shapeAt c rest
      have hsplit : (pieceAt c rest).chars ++ rest.drop (shapeAt c rest).2 = c :: rest := by
        simp [pieceAt, Piece.chars, List.take_append_drop]
      have hcovers := Covers.cons hmunch ih
      rwa [hsplit] at hcovers

theorem eq_pieces_of_covers (h : Covers ps text) : ps = pieces text := by
  induction h with
  | nil => rw [pieces]
  | @cons piece ps rest hmunch _ ih =>
      obtain ⟨shape, c, others⟩ := piece
      -- the rule settles how long the first piece is, and with it what is left to cover
      have hshape : shapeAt c (others ++ rest) = (shape, others.length) := munch_iff.1 hmunch
      have hpiece : pieceAt c (others ++ rest) = ⟨shape, c, others⟩ := by
        simp only [pieceAt, hshape, List.take_left]
      show _ = pieces (c :: (others ++ rest))
      rw [pieces, hpiece, hshape, List.drop_left, ← ih]

/-- The pieces of a text cover it, and no others do. -/
theorem covers_iff : Covers ps text ↔ ps = pieces text := by
  constructor
  · exact eq_pieces_of_covers
  · rintro rfl
    exact covers_pieces text

/-! ## Readings of pieces -/

/-- A piece is a token, by its shape. -/
def Piece.isToken (p : Piece) : Bool :=
  match p.shape with
  | .mark _ | .string | .numeral | .word => true
  | .openString | .blank | .newline | .comment | .openComment | .stray => false

/-- A piece is at fault, by its shape. -/
def Piece.isFaulty (p : Piece) : Bool :=
  match p.shape with
  | .openString | .stray => true
  | .mark _ | .string | .numeral | .word | .blank | .newline | .comment | .openComment => false

/-- A piece is a token of a kind and a value. -/
inductive Piece.ReadsAs (p : Piece) : Kind → Value → Prop where
  | mark {kind : Kind} : p.shape = .mark kind → p.ReadsAs kind .nil
  | string {inner : List Char} :
      p.shape = .string → p.chars = Text.doubleQuote :: inner ++ [Text.doubleQuote] →
      p.ReadsAs .string (.text (String.ofList inner))
  | whole :
      p.shape = .numeral → p.chars.all isDigit = true →
      p.ReadsAs .number (.number (Decimal.ofNumeral p.chars []).toDouble)
  | fraction {whole fraction : List Char} :
      p.shape = .numeral → p.chars = whole ++ '.' :: fraction → whole.all isDigit = true →
      fraction.all isDigit = true →
      p.ReadsAs .number (.number (Decimal.ofNumeral whole fraction).toDouble)
  | keyword {word : Keyword} :
      p.shape = .word → word.spelling = p.text → p.ReadsAs (.keyword word) .nil
  | identifier :
      p.shape = .word → (∀ word : Keyword, word.spelling ≠ p.text) → p.ReadsAs .identifier .nil

/-- A token is what a piece is read as: its lexeme is the piece, and its kind and its value are those of
the piece. -/
def Piece.MakesToken (p : Piece) (t : Token) : Prop := t.lexeme = p.text ∧ p.ReadsAs t.kind t.literal

/-- A diagnostic is what a piece is reported as. -/
def Piece.MakesReport (p : Piece) (d : Diagnostic) : Prop :=
  d.kind = .lexical ∧ d.place = "" ∧
    ((p.shape = .stray ∧ d.code = some "L001" ∧ d.message = "Unexpected character.") ∨
      (p.shape = .openString ∧ d.code = some "L002" ∧ d.message = "Unterminated string."))

/-! ### Kinds and values -/

theorem ofSpelling?_spelling (word : Keyword) : Keyword.ofSpelling? word.spelling = some word := by
  cases word <;> rfl

/-- A word is a reserved word exactly if it is the spelling of one. -/
theorem ofSpelling?_eq_some_iff {word : Keyword} {s : String} :
    Keyword.ofSpelling? s = some word ↔ word.spelling = s := by
  constructor
  · intro h
    simpa using List.find?_some h
  · rintro rfl
    exact ofSpelling?_spelling word

theorem readsAs_ofWord (h : p.shape = .word) : p.ReadsAs (Kind.ofWord p.text) .nil := by
  unfold Kind.ofWord
  split
  · rename_i word hword
    exact .keyword h (ofSpelling?_eq_some_iff.1 hword)
  · rename_i hnone
    refine .identifier h fun word hspelling => ?_
    rw [ofSpelling?_eq_some_iff.2 hspelling] at hnone
    cases hnone

theorem numeral_of_all (h : p.chars.all isDigit = true) (line offset : Nat) :
    (Placed.mk p line offset).numeral = (Decimal.ofNumeral p.chars []).toDouble := by
  simp only [Placed.numeral]
  rw [takeWhile_of_all h, List.drop_of_length_le (Nat.le_succ _)]

theorem numeral_of_point {whole fraction : List Char} (h : p.chars = whole ++ '.' :: fraction)
    (hall : whole.all isDigit = true) (line offset : Nat) :
    (Placed.mk p line offset).numeral = (Decimal.ofNumeral whole fraction).toDouble := by
  have hpoint : StopsAt isDigit ('.' :: fraction) := by
    intro c hc
    obtain rfl : '.' = c := Option.some.inj hc
    decide
  have hdrop : (whole ++ '.' :: fraction).drop (whole.length + 1) = fraction := by
    rw [List.drop_append]
    simp
  simp only [Placed.numeral]
  rw [h, takeWhile_append_of_stopsAt hall hpoint, hdrop]

theorem readsAs_numeral (h : p.shape = .numeral) (hmunch : Munch .numeral p.chars rest)
    (line offset : Nat) :
    p.ReadsAs .number (.number (Placed.mk p line offset).numeral) := by
  generalize htext : p.chars = text at hmunch
  cases hmunch with
  | whole _ hall _ _ =>
      subst htext
      rw [numeral_of_all hall]
      exact .whole h hall
  | @fraction whole fraction _ _ hall _ hall' _ =>
      rw [numeral_of_point htext hall]
      exact .fraction h htext hall hall'

theorem readsAs_string (h : p.shape = .string) (hmunch : Munch .string p.chars rest) :
    p.ReadsAs .string (.text (String.ofList p.others.dropLast)) := by
  generalize htext : p.chars = text at hmunch
  cases hmunch with
  | @string inner _ _ =>
      have hothers : p.others = inner ++ [Text.doubleQuote] := (List.cons.inj htext).2
      rw [hothers, List.dropLast_concat]
      exact .string h htext

/-- The marks, each with its kind. -/
def marks : List (List Char × Kind) :=
  (['/'], .slash) :: Kind.single.map (fun entry => ([entry.1], entry.2)) ++
    Kind.equalSuffix.flatMap fun entry => [([entry.1], entry.2.1), ([entry.1, '='], entry.2.2)]

theorem mem_marks_of_munch {kind : Kind} (h : Munch (.mark kind) text rest) : (text, kind) ∈ marks := by
  cases h with
  | single hmem => exact List.mem_append_left _ (List.mem_cons_of_mem _ (List.mem_map.2 ⟨_, hmem, rfl⟩))
  | short hmem _ => exact List.mem_append_right _ (List.mem_flatMap.2 ⟨_, hmem, List.mem_cons_self⟩)
  | long hmem =>
      exact List.mem_append_right _
        (List.mem_flatMap.2 ⟨_, hmem, List.mem_cons_of_mem _ List.mem_cons_self⟩)
  | slash _ _ => exact List.mem_cons_self

/-- No piece is read as an end of the input. -/
theorem ne_endOfInput_of_munch_mark {kind : Kind} (h : Munch (.mark kind) text rest) :
    kind ≠ .endOfInput := by
  have hmarks : ∀ entry ∈ marks, entry.2 ≠ .endOfInput := by decide
  exact hmarks _ (mem_marks_of_munch h)

/-! ### Pieces where they stand -/

/-- A piece of a token's shape is a token, wherever it stands. -/
theorem exists_token (hmunch : Munch p.shape p.chars rest) (h : p.isToken = true)
    (line offset : Nat) :
    ∃ t, (Placed.mk p line offset).token? = some t ∧ p.MakesToken t ∧ t.kind ≠ .endOfInput := by
  cases hshape : p.shape with
  | mark kind =>
      have hkind := ne_endOfInput_of_munch_mark (hshape ▸ hmunch)
      exact ⟨⟨kind, p.text, .nil, line⟩, by simp only [Placed.token?, hshape], ⟨rfl, .mark hshape⟩, hkind⟩
  | string =>
      have hreads := readsAs_string hshape (hshape ▸ hmunch)
      refine ⟨_, by simp only [Placed.token?, hshape]; rfl, ⟨rfl, hreads⟩, ?_⟩
      exact fun hend => nomatch hend
  | numeral =>
      have hreads := readsAs_numeral hshape (hshape ▸ hmunch) line offset
      refine ⟨_, by simp only [Placed.token?, hshape]; rfl, ⟨rfl, hreads⟩, ?_⟩
      exact fun hend => nomatch hend
  | word =>
      have hreads := readsAs_ofWord hshape
      refine ⟨_, by simp only [Placed.token?, hshape]; rfl, ⟨rfl, hreads⟩, ?_⟩
      show Kind.ofWord p.text ≠ .endOfInput
      unfold Kind.ofWord
      split <;> exact fun hend => nomatch hend
  | openString | blank | newline | comment | openComment | stray => simp [hshape, Piece.isToken] at h

theorem token?_eq_none (h : p.isToken = false) : (Placed.mk p line offset).token? = none := by
  cases hshape : p.shape with
  | mark kind | string | numeral | word => simp [hshape, Piece.isToken] at h
  | openString | blank | newline | comment | openComment | stray => simp only [Placed.token?, hshape]

/-- What a piece makes a token of is what it is read as. -/
theorem makesToken_of_token? {t : Token} (hmunch : Munch p.shape p.chars rest)
    (h : (Placed.mk p line offset).token? = some t) : p.isToken = true ∧ p.MakesToken t := by
  cases htoken : p.isToken with
  | false =>
      rw [token?_eq_none htoken] at h
      cases h
  | true =>
      obtain ⟨t', h', hmakes, -⟩ := exists_token hmunch htoken line offset
      obtain rfl : t = t' := Option.some.inj (h.symm.trans h')
      exact ⟨rfl, hmakes⟩

theorem exists_fault (h : p.isFaulty = true) (line offset : Nat) :
    ∃ fault, (Placed.mk p line offset).fault? = some fault ∧ p.MakesReport fault.diagnostic := by
  cases hshape : p.shape with
  | openString =>
      refine ⟨_, by simp only [Placed.fault?, hshape]; rfl, rfl, rfl, .inr ⟨hshape, rfl, rfl⟩⟩
  | stray =>
      refine ⟨_, by simp only [Placed.fault?, hshape]; rfl, rfl, rfl, .inl ⟨hshape, rfl, rfl⟩⟩
  | mark kind | string | numeral | word | blank | newline | comment | openComment =>
      simp [hshape, Piece.isFaulty] at h

theorem fault?_eq_none (h : p.isFaulty = false) : (Placed.mk p line offset).fault? = none := by
  cases hshape : p.shape with
  | openString | stray => simp [hshape, Piece.isFaulty] at h
  | mark kind | string | numeral | word | blank | newline | comment | openComment =>
      simp only [Placed.fault?, hshape]

/-! ## Tokens and diagnostics of a source -/

/-- The tokens of pieces that cover a text are those of its token pieces, from any place on. -/
theorem tokens_of_covers (h : Covers ps text) (line offset : Nat) :
    List.Forall₂ Piece.MakesToken (ps.filter Piece.isToken)
        ((place line offset ps).filterMap Placed.token?) ∧
      ∀ t ∈ (place line offset ps).filterMap Placed.token?, t.kind ≠ .endOfInput := by
  induction h generalizing line offset with
  | nil => exact ⟨.nil, by simp [place]⟩
  | @cons piece ps rest hmunch _ ih =>
      obtain ⟨hall, hkinds⟩ := ih (line + piece.newlines) (offset + piece.chars.length)
      rw [place]
      cases htoken : piece.isToken with
      | true =>
          obtain ⟨t, heq, hread, hkind⟩ := exists_token hmunch htoken line offset
          rw [List.filter_cons_of_pos htoken, List.filterMap_cons_some heq]
          exact ⟨.cons hread hall, List.forall_mem_cons.2 ⟨hkind, hkinds⟩⟩
      | false =>
          rw [List.filter_cons_of_neg (by simp [htoken]), List.filterMap_cons_none (token?_eq_none htoken)]
          exact ⟨hall, hkinds⟩

/-- The diagnostics of pieces are those of the pieces at fault, from any place on. -/
theorem diagnostics_of_pieces (ps : List Piece) (line offset : Nat) :
    List.Forall₂ Piece.MakesReport (ps.filter Piece.isFaulty)
      (((place line offset ps).filterMap Placed.fault?).map Fault.diagnostic) := by
  induction ps generalizing line offset with
  | nil => exact .nil
  | cons piece ps ih =>
      rw [place]
      cases hfaulty : piece.isFaulty with
      | true =>
          obtain ⟨fault, heq, hreport⟩ := exists_fault hfaulty line offset
          rw [List.filter_cons_of_pos hfaulty, List.filterMap_cons_some heq, List.map_cons]
          exact .cons hreport (ih _ _)
      | false =>
          rw [List.filter_cons_of_neg (by simp [hfaulty]),
            List.filterMap_cons_none (fault?_eq_none hfaulty)]
          exact ih _ _

/-- Reading is exact maximal munch and loses nothing. A source falls into pieces in one way only; the
pieces, joined, are the source, and each is the one that the rules allow for the text from it on. The
tokens are those of the pieces that are tokens, one for each and in order, and one end of the input behind
them; the diagnostics are those of the pieces at fault. -/
theorem scan_covers_exactly (source : String) :
    (∀ ps, Covers ps source.toList ↔ ps = pieces source.toList) ∧
    (∀ shape c others rest,
      Munch shape (c :: others) rest ↔ shapeAt c (others ++ rest) = (shape, others.length)) ∧
    (pieces source.toList).flatMap Piece.chars = source.toList ∧
    (∃ body, tokens source = body ++ [⟨.endOfInput, "", .nil, lastLine source⟩] ∧
      List.Forall₂ Piece.MakesToken ((pieces source.toList).filter Piece.isToken) body ∧
      ∀ t ∈ body, t.kind ≠ .endOfInput) ∧
    List.Forall₂ Piece.MakesReport ((pieces source.toList).filter Piece.isFaulty)
      (diagnostics source) := by
  have hcovers := covers_pieces source.toList
  refine ⟨fun _ => covers_iff, fun _ _ _ _ => munch_iff, flatten_pieces _, ?_, ?_⟩
  · obtain ⟨hall, hkinds⟩ := tokens_of_covers hcovers 1 0
    exact ⟨_, rfl, hall, hkinds⟩
  · exact diagnostics_of_pieces _ 1 0

/-- `3./*/` is a number, a point that no digit follows, and a comment that its own star does not close. -/
theorem pieces_numeral_point_comment :
    pieces (String.ofList ['3', '.', '/', '*', '/']).toList =
      [⟨.numeral, '3', []⟩, ⟨.mark .dot, '.', []⟩, ⟨.openComment, '/', ['*', '/']⟩] := by
  have hno : ¬ Closes ['/'] := by
    rintro ⟨before, after, h⟩
    cases before <;> simp at h
  have hcovers : Covers [⟨.numeral, '3', []⟩, ⟨.mark .dot, '.', []⟩, ⟨.openComment, '/', ['*', '/']⟩]
      ['3', '.', '/', '*', '/'] := by
    refine @Covers.cons _ _ ['.', '/', '*', '/'] (.whole (by decide) (by decide) ?_ ?_) ?_
    · simp [StopsAt, isDigit]
    · rintro after h
      obtain rfl := (List.cons.inj h).2
      simp [StopsAt, isDigit]
    · refine @Covers.cons _ _ ['/', '*', '/'] (.single (by decide)) ?_
      exact @Covers.cons _ _ [] (.openComment hno) .nil
  have hlist : (String.ofList ['3', '.', '/', '*', '/']).toList = ['3', '.', '/', '*', '/'] :=
    String.toList_ofList
  exact (((scan_covers_exactly (String.ofList ['3', '.', '/', '*', '/'])).1 _).1 (hlist ▸ hcovers)).symm

end LoxSyntax.Scan
