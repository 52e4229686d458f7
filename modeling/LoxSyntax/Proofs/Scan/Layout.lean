/-
# LoxSyntax.Proofs.Scan.Layout -- lexemes are read alike however they are laid out

A token is LEGIBLE if its lexeme is a piece that is read as the token in front of any break. The tokens
of a source are legible, because a piece of a token's shape does not mind what is put behind it as long
as it is a break (`legible_of_mem_body`).

A filler falls into pieces that are neither tokens nor at fault, whatever follows it. So a text in which
the lexemes of legible tokens are laid out falls into the pieces of those tokens and of fillers: it has
these tokens, on whatever lines, and nothing in it is at fault (`scan_laidOut`).
-/
import LoxSyntax.Proofs.Scan.Join

namespace LoxSyntax

@[simp] theorem Token.unplaced_down (count : Nat) (t : Token) : (t.down count).unplaced = t.unplaced := rfl

namespace Scan

variable {p : Piece} {ps qs : List Piece} {text rest filler gap : List Char}
  {lexemes : List (List Char)} {t : Token} {ts : List Token}

/-! ## What a piece is read as -/

/-- The token that a piece is, on no line. -/
def Piece.reading? (p : Piece) : Option Token := (Placed.mk p 0 0).token?

theorem map_unplaced_token? (p : Piece) (line offset : Nat) :
    (Placed.mk p line offset).token?.map Token.unplaced = p.reading? := by
  have hdown := token?_down p 0 0 offset line
  rw [Nat.zero_add] at hdown
  rw [hdown, Option.map_map, Piece.reading?]
  cases hread : (Placed.mk p 0 0).token? with
  | none => rfl
  | some t =>
      have hline : t.line = 0 := by
        cases hshape : p.shape <;> simp [Placed.token?, hshape] at hread <;> rw [← hread]
      simp only [Option.map_some, Function.comp_apply, Token.unplaced_down]
      rw [Token.unplaced, ← hline]

/-- Without their places, the tokens of pieces are what the pieces are read as. -/
theorem map_unplaced_tokens (ps : List Piece) (line offset : Nat) :
    ((place line offset ps).filterMap Placed.token?).map Token.unplaced =
      ps.filterMap Piece.reading? := by
  induction ps generalizing line offset with
  | nil => rfl
  | cons p ps ih =>
      have hfirst := map_unplaced_token? p line offset
      simp only [place, List.filterMap_cons, ← hfirst]
      cases (Placed.mk p line offset).token? with
      | none => exact ih _ _
      | some t => simp only [Option.map_some, List.map_cons, ih]

theorem diagnostics_eq_nil (h : ∀ p ∈ ps, p.isFaulty = false) (line offset : Nat) :
    (place line offset ps).filterMap Placed.fault? = [] := by
  induction ps generalizing line offset with
  | nil => rfl
  | cons p ps ih =>
      obtain ⟨hfirst, htail⟩ := List.forall_mem_cons.1 h
      rw [place, List.filterMap_cons_none (fault?_eq_none hfirst)]
      exact ih htail _ _

/-- Pieces are read as tokens, in order, and none of them is at fault. -/
structure ReadAs (ps : List Piece) (ts : List Token) : Prop where
  readings : ps.filterMap Piece.reading? = ts.map Token.unplaced
  faultless : ∀ p ∈ ps, p.isFaulty = false

theorem readAs_nil : ReadAs [] [] := ⟨rfl, by simp⟩

theorem ReadAs.cons_token (h : ReadAs ps ts) (hread : p.reading? = some t.unplaced)
    (hfaultless : p.isFaulty = false) : ReadAs (p :: ps) (t :: ts) := by
  refine ⟨?_, List.forall_mem_cons.2 ⟨hfaultless, h.faultless⟩⟩
  rw [List.filterMap_cons_some hread, h.readings]
  rfl

theorem ReadAs.cons_silent (h : ReadAs ps ts) (htoken : p.isToken = false)
    (hfaultless : p.isFaulty = false) : ReadAs (p :: ps) ts := by
  refine ⟨?_, List.forall_mem_cons.2 ⟨hfaultless, h.faultless⟩⟩
  have hread : p.reading? = none := token?_eq_none htoken
  rw [List.filterMap_cons_none hread, h.readings]

/-! ## Fillers -/

/-- In front of a text, a filler falls into pieces of its own, of which none is read as anything. -/
theorem exists_covers_of_filler (hfiller : Filler filler) (hcovers : Covers ps text)
    (hread : ReadAs ps ts) : ∃ qs, Covers qs (filler ++ text) ∧ ReadAs qs ts := by
  induction hfiller with
  | nil => exact ⟨ps, hcovers, hread⟩
  | @blank c rest hmem _ ih =>
      obtain ⟨qs, hqs, hread⟩ := ih
      exact ⟨⟨.blank, c, []⟩ :: qs, .cons (.blank hmem) hqs, hread.cons_silent rfl rfl⟩
  | newline _ ih =>
      obtain ⟨qs, hqs, hread⟩ := ih
      exact ⟨.newline :: qs, .cons .newline hqs, hread.cons_silent rfl rfl⟩
  | @lineComment body rest hno _ ih =>
      obtain ⟨qs, hqs, hread⟩ := ih
      have hnewline : Covers (.newline :: qs) ('\n' :: (rest ++ text)) := .cons .newline hqs
      have hstop : StopsAt (· ≠ '\n') ('\n' :: (rest ++ text)) := by simp [StopsAt]
      refine ⟨⟨.comment, '/', '/' :: body⟩ :: .newline :: qs, ?_,
        (hread.cons_silent rfl rfl).cons_silent rfl rfl⟩
      rw [List.append_assoc]
      exact .cons (.lineComment hno hstop) hnewline
  | @blockComment body rest hno _ ih =>
      obtain ⟨qs, hqs, hread⟩ := ih
      refine ⟨⟨.comment, '/', '*' :: body ++ ['*', '/']⟩ :: qs, ?_, hread.cons_silent rfl rfl⟩
      have hsplit : '/' :: '*' :: body ++ '*' :: '/' :: rest ++ text =
          ('/' :: '*' :: body ++ ['*', '/']) ++ (rest ++ text) := by simp
      rw [hsplit]
      exact .cons (.blockComment hno) hqs

theorem Gap.break_append (h : Gap gap) (text : List Char) : Break (gap ++ text) := by
  obtain ⟨c, hc, hsep⟩ := h.separates
  obtain ⟨rest, rfl⟩ := List.head?_eq_some_iff.1 hc
  intro d hd
  obtain rfl : c = d := Option.some.inj hd
  exact hsep

theorem LaidBehind.break (h : LaidBehind lexemes text) : Break text := by
  cases h with
  | nothing => exact break_nil
  | gap hgap => simpa using hgap.break_append []
  | lexeme hgap _ =>
      rw [List.append_assoc]
      exact hgap.break_append _

/-! ## Legible tokens -/

/-- The lexeme of a token is a piece that is read as the token in front of any break. -/
def Legible (t : Token) : Prop :=
  ∃ p : Piece, p.chars = t.lexeme.toList ∧ p.reading? = some t.unplaced ∧ p.isFaulty = false ∧
    ∀ sep, Break sep → Munch p.shape p.chars sep

/-- A piece that is a token where it stands is legible as that token. -/
theorem legible_of_munch {line offset : Nat} (hmunch : Munch p.shape p.chars rest)
    (ht : (Placed.mk p line offset).token? = some t) : Legible t := by
  have hread : p.reading? = some t.unplaced := by rw [← map_unplaced_token? p line offset, ht]; rfl
  obtain ⟨htoken, hlexeme, -⟩ := makesToken_of_token? hmunch ht
  have hshape : p.isFaulty = false ∧ p.shape ≠ .openString ∧ p.shape ≠ .openComment ∧
      p.shape ≠ .comment := by
    cases hshape : p.shape <;> simp_all [Piece.isToken, Piece.isFaulty]
  obtain ⟨hfaultless, hstring, hopen, hcomment⟩ := hshape
  refine ⟨p, ?_, hread, hfaultless, ?_⟩
  · rw [hlexeme, Piece.text, String.toList_ofList]
  · intro sep hsep
    have hmunch' : Munch p.shape p.chars ([] ++ rest) := hmunch
    exact hmunch'.cut hstring hopen hsep fun h => absurd h hcomment

theorem legible_of_covers (h : Covers ps text) (line offset : Nat) :
    ∀ t ∈ (place line offset ps).filterMap Placed.token?, Legible t := by
  induction h generalizing line offset with
  | nil => simp [place]
  | @cons piece ps rest hmunch _ ih =>
      intro t ht
      rw [place, List.filterMap_cons] at ht
      cases hread : (Placed.mk piece line offset).token? with
      | none =>
          rw [hread] at ht
          exact ih _ _ t ht
      | some t' =>
          rw [hread] at ht
          rcases List.mem_cons.1 ht with rfl | ht
          · exact legible_of_munch hmunch hread
          · exact ih _ _ t ht

/-- The tokens of every source are legible. -/
theorem legible_of_mem_body (source : String) : ∀ t ∈ (sequence source).body, Legible t :=
  legible_of_covers (covers_pieces source.toList) 1 0

/-! ## Lexemes that are laid out -/

/-- The lexemes of tokens, as lists of characters. -/
def lexemesOf (ts : List Token) : List (List Char) := ts.map fun t => t.lexeme.toList

/-- A lexeme behind a filler and in front of a break is read as its token. -/
theorem exists_covers_of_lexeme (hfiller : Filler filler) (ht : Legible t) (hbreak : Break text)
    (hcovers : Covers ps text) (hread : ReadAs ps ts) :
    ∃ qs, Covers qs (filler ++ t.lexeme.toList ++ text) ∧ ReadAs qs (t :: ts) := by
  obtain ⟨p, hchars, hp, hfaultless, hmunch⟩ := ht
  have hlexeme : Covers (p :: ps) (t.lexeme.toList ++ text) := by
    rw [← hchars]
    exact .cons (hmunch text hbreak) hcovers
  rw [List.append_assoc]
  exact exists_covers_of_filler hfiller hlexeme (hread.cons_token hp hfaultless)

theorem exists_covers_of_laidBehind (h : LaidBehind lexemes text) (hts : lexemesOf ts = lexemes)
    (hlegible : ∀ t ∈ ts, Legible t) : ∃ qs, Covers qs text ∧ ReadAs qs ts := by
  induction h generalizing ts with
  | nothing =>
      obtain rfl : ts = [] := by simpa [lexemesOf] using hts
      exact ⟨[], .nil, readAs_nil⟩
  | gap hgap =>
      obtain rfl : ts = [] := by simpa [lexemesOf] using hts
      simpa using exists_covers_of_filler hgap.filler .nil readAs_nil
  | lexeme hgap hlaid ih =>
      obtain ⟨t, ts, rfl, rfl, hrest⟩ := List.map_eq_cons_iff.1 hts
      obtain ⟨hfirst, htail⟩ := List.forall_mem_cons.1 hlegible
      obtain ⟨qs, hcovers, hread⟩ := ih hrest htail
      exact exists_covers_of_lexeme hgap.filler hfirst hlaid.break hcovers hread

theorem exists_covers_of_laidOut (h : LaidOut (lexemesOf ts) text) (hlegible : ∀ t ∈ ts, Legible t) :
    ∃ qs, Covers qs text ∧ ReadAs qs ts := by
  generalize hts : lexemesOf ts = lexemes at h
  cases h with
  | filler hfiller =>
      obtain rfl : ts = [] := by simpa [lexemesOf] using hts
      simpa using exists_covers_of_filler hfiller .nil readAs_nil
  | lexemes hfiller hlaid =>
      obtain ⟨t, ts, rfl, rfl, hrest⟩ := List.map_eq_cons_iff.1 hts
      obtain ⟨hfirst, htail⟩ := List.forall_mem_cons.1 hlegible
      obtain ⟨qs, hcovers, hread⟩ := exists_covers_of_laidBehind hlaid hrest htail
      exact exists_covers_of_lexeme hfiller hfirst hlaid.break hcovers hread

/-- A text in which the lexemes of legible tokens are laid out has these tokens, up to their places, and
nothing in it is at fault. -/
theorem scan_laidOut {source : String} (h : LaidOut (lexemesOf ts) source.toList)
    (hlegible : ∀ t ∈ ts, Legible t) :
    (sequence source).body.map Token.unplaced = ts.map Token.unplaced ∧ diagnostics source = [] := by
  obtain ⟨qs, hcovers, hread⟩ := exists_covers_of_laidOut h hlegible
  obtain rfl := eq_pieces_of_covers hcovers
  constructor
  · exact (map_unplaced_tokens _ 1 0).trans hread.readings
  · rw [diagnostics, faults, placed, diagnostics_eq_nil hread.faultless]
    rfl

end Scan

end LoxSyntax
