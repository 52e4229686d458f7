/-
# LoxSyntax.Proofs.Scan.Lexeme -- the lexemes that expressions are written with are legible

The lexemes of expressions are of two sorts. Operators, parentheses and the words for nil and the truth
values are the same in every expression: each of them alone is a source of one token, which is found by
reading it (`scan_fixedLexeme`). Numbers and texts are open-ended: a numeral is one token because it ends
where its digits end (`legible_of_denotes`), and a text in quotes because it holds no other quote
(`legible_text`). So every value that has a literal has a legible token (`legible_token`). Single spaces
between lexemes are enough to keep them apart (`laidOut_spaced`).

Where lexemes are not kept apart, a text is read from the front: a piece, and then what follows it
(`readings_append`).
-/
import LoxSyntax.Proofs.Number.Reading
import LoxSyntax.Proofs.Scan.Layout

namespace LoxSyntax

open Number (Denotes Double)
open Number.Decimal (EndsNumeral endsNumeral_nil powerText)

/-- The token that a value is written with, on no line. -/
def Value.token (value : Value) : Token :=
  match value with
  | .nil => ⟨.keyword .nilWord, value.lexeme, .nil, 0⟩
  | .bool true => ⟨.keyword .trueWord, value.lexeme, .nil, 0⟩
  | .bool false => ⟨.keyword .falseWord, value.lexeme, .nil, 0⟩
  | .number _ => ⟨.number, value.lexeme, value, 0⟩
  | .text _ => ⟨.string, value.lexeme, value, 0⟩

theorem Value.lexeme_token (value : Value) : value.token.lexeme = value.lexeme := by
  rcases value with _ | (_ | _) | _ | _ <;> rfl

theorem Value.operand?_token (value : Value) : value.token.operand? = some value := by
  rcases value with _ | (_ | _) | _ | _ <;> rfl

namespace Scan

variable {p : Piece} {t t' : Token} {text rest : List Char} {x : Double}

/-- Whether a token is legible does not depend on its line. -/
theorem Legible.of_unplaced_eq (h : Legible t) (heq : t.unplaced = t'.unplaced) : Legible t' := by
  obtain ⟨p, hchars, hread, hfaultless, hmunch⟩ := h
  have hlexeme : t.unplaced.lexeme = t'.unplaced.lexeme := congrArg Token.lexeme heq
  exact ⟨p, hchars.trans (congrArg String.toList hlexeme), by rw [← heq, hread], hfaultless, hmunch⟩

/-! ## Fixed lexemes -/

/-- The lexemes that are the same in every expression, with their kinds. -/
def fixedLexemes : List (String × Kind) :=
  Kind.binaryOperators ++ Kind.unaryOperators ++
    [("(", .leftParen), (")", .rightParen), ("nil", .keyword .nilWord), ("true", .keyword .trueWord),
      ("false", .keyword .falseWord)]

/-- A fixed lexeme alone is a source of one token. -/
theorem scan_fixedLexeme {lexeme : String} {kind : Kind} (h : (lexeme, kind) ∈ fixedLexemes) :
    (sequence lexeme).body = [⟨kind, lexeme, .nil, 1⟩] := by
  have hall : (fixedLexemes.all fun entry =>
      decide ((sequence entry.1).body = [⟨entry.2, entry.1, .nil, 1⟩])) = true := by cbv
  simpa using List.all_eq_true.1 hall _ h

theorem legible_of_mem_fixedLexemes (h : (t.lexeme, t.kind) ∈ fixedLexemes) (hliteral : t.literal = .nil) :
    Legible t := by
  have hmem : ⟨t.kind, t.lexeme, .nil, 1⟩ ∈ (sequence t.lexeme).body := by
    rw [scan_fixedLexeme h]
    exact List.mem_singleton_self _
  refine (legible_of_mem_body _ _ hmem).of_unplaced_eq ?_
  rw [Token.unplaced, Token.unplaced, hliteral]

/-! ## Numerals and texts -/

theorem munch_of_denotes (h : Denotes text x) (hend : EndsNumeral rest) : Munch .numeral text rest := by
  have hstop : StopsAt Number.isDigit rest := fun c hc => (hend c hc).1
  cases h with
  | whole hne hall =>
      refine .whole hne hall hstop ?_
      rintro after rfl
      exact absurd rfl (hend '.' rfl).2
  | fraction hne hall hne' hall' => exact .fraction hne hall hne' hall' hstop

theorem numeral_of_denotes (h : Denotes p.chars x) (line offset : Nat) :
    (Placed.mk p line offset).numeral = x := by
  generalize htext : p.chars = text at h
  cases h with
  | whole _ hall =>
      subst htext
      exact numeral_of_all hall line offset
  | fraction _ hall _ _ => exact numeral_of_point htext hall line offset

/-- A numeral is a piece that is read as the number that it denotes. -/
theorem exists_numeral_piece (h : Denotes text x) :
    ∃ p : Piece, p.shape = .numeral ∧ p.chars = text ∧
      p.reading? = some ⟨.number, String.ofList text, .number x, 0⟩ := by
  obtain ⟨c, others, rfl⟩ := List.exists_cons_of_ne_nil h.ne_nil
  let p : Piece := ⟨.numeral, c, others⟩
  have hnumeral : (Placed.mk p 0 0).numeral = x := numeral_of_denotes (p := p) h 0 0
  refine ⟨p, rfl, rfl, ?_⟩
  rw [Piece.reading?, Placed.token?, hnumeral]
  rfl

/-- A numeral is the token of the number that it denotes. -/
theorem legible_of_denotes {numeral : String} (h : Denotes numeral.toList x) :
    Legible ⟨.number, numeral, .number x, 0⟩ := by
  obtain ⟨p, hshape, hchars, hread⟩ := exists_numeral_piece h
  have hmunch : Munch p.shape p.chars [] := by
    rw [hshape, hchars]
    exact munch_of_denotes h endsNumeral_nil
  rw [String.ofList_toList] at hread
  exact legible_of_munch hmunch hread

/-- A text without quotes, put in quotes, is the token of the text. -/
theorem legible_text {s : String} (h : Text.doubleQuote ∉ s.toList) : Legible (Value.text s).token := by
  let p : Piece := ⟨.string, Text.doubleQuote, s.toList ++ [Text.doubleQuote]⟩
  have hmunch : Munch p.shape p.chars [] := .string h
  have htoken : (Placed.mk p 0 0).token? = some (Value.text s).token := by
    have hinner : String.ofList (s.toList ++ [Text.doubleQuote]).dropLast = s := by
      rw [List.dropLast_concat, String.ofList_toList]
    rw [Placed.token?, hinner]
    rfl
  exact legible_of_munch hmunch htoken

/-- A value that has a literal has a legible token. -/
theorem legible_token {value : Value} (h : value.IsWritten) : Legible value.token := by
  rcases value with _ | (_ | _) | x | s
  · exact legible_of_mem_fixedLexemes (by decide) rfl
  · exact legible_of_mem_fixedLexemes (by decide) rfl
  · exact legible_of_mem_fixedLexemes (by decide) rfl
  · exact legible_of_denotes (Number.denotes_display h)
  · exact legible_text h

/-! ## Spaces between lexemes -/

theorem gap_space : Gap [' '] :=
  ⟨.blank (by decide) .nil, ' ', rfl, .inl (by decide)⟩

/-- Lexemes with a space before each are laid out behind what stands before them. -/
theorem laidBehind_spaced (lexemes : List (List Char)) :
    LaidBehind lexemes (lexemes.flatMap fun lexeme => ' ' :: lexeme) := by
  induction lexemes with
  | nil => exact .nothing
  | cons lexeme lexemes ih => exact .lexeme gap_space ih

theorem intercalate_space (lexeme : List Char) (lexemes : List (List Char)) :
    [' '].intercalate (lexeme :: lexemes) = lexeme ++ lexemes.flatMap fun lexeme => ' ' :: lexeme := by
  induction lexemes generalizing lexeme with
  | nil => simp
  | cons next lexemes ih => simp [ih]

/-- Lexemes with spaces between them are laid out. -/
theorem laidOut_spaced {lexemes : List String} (h : lexemes ≠ []) :
    LaidOut (lexemes.map String.toList) (" ".intercalate lexemes).toList := by
  obtain ⟨lexeme, lexemes, rfl⟩ := List.exists_cons_of_ne_nil h
  have hspace : " ".toList = [' '] := rfl
  rw [String.toList_intercalate, List.map_cons, hspace, intercalate_space]
  exact .lexemes .nil (laidBehind_spaced _)

/-! ## Texts, piece by piece -/

/-- What the pieces of a text are read as, on no lines. -/
def readings (text : List Char) : List Token := (pieces text).filterMap Piece.reading?

theorem pieces_append (h : Munch p.shape p.chars rest) : pieces (p.chars ++ rest) = p :: pieces rest :=
  (eq_pieces_of_covers (.cons h (covers_pieces rest))).symm

theorem readings_append (h : Munch p.shape p.chars rest) (hread : p.reading? = some t) :
    readings (p.chars ++ rest) = t :: readings rest := by
  rw [readings, pieces_append h, List.filterMap_cons_some hread, readings]

theorem readings_openParen (rest : List Char) :
    readings ('(' :: rest) = ⟨.leftParen, "(", .nil, 0⟩ :: readings rest := by
  let p : Piece := ⟨.mark .leftParen, '(', []⟩
  have hmunch : Munch p.shape p.chars rest := .single (by decide)
  exact readings_append hmunch rfl

theorem readings_space (rest : List Char) : readings (' ' :: rest) = readings rest := by
  let p : Piece := ⟨.blank, ' ', []⟩
  have hmunch : Munch p.shape p.chars rest := .blank (by decide)
  have hpieces : pieces (' ' :: rest) = p :: pieces rest := pieces_append hmunch
  rw [readings, hpieces, List.filterMap_cons_none rfl, readings]

/-- A lexeme in front of a space is read as its token. -/
theorem Legible.readings_append (h : Legible t) (rest : List Char) :
    readings (t.lexeme.toList ++ ' ' :: rest) = t.unplaced :: readings rest := by
  obtain ⟨p, hchars, hread, -, hmunch⟩ := h
  have hbreak : Break (' ' :: rest) := gap_space.break_append rest
  rw [← hchars, Scan.readings_append (hmunch _ hbreak) hread, readings_space]

/-- A numeral is read as its number, whatever follows that does not go on with the numeral. -/
theorem readings_numeral (h : Denotes text x) (hend : EndsNumeral rest) :
    readings (text ++ rest) = ⟨.number, String.ofList text, .number x, 0⟩ :: readings rest := by
  obtain ⟨p, hshape, rfl, hread⟩ := exists_numeral_piece h
  refine readings_append ?_ hread
  rw [hshape]
  exact munch_of_denotes h hend

/-- The power of ten behind a numeral is no part of it: it is read as a name first. -/
theorem readings_powerText (width : Nat) (power : Int) :
    ∃ rest, readings (powerText width power) = ⟨.identifier, "e", .nil, 0⟩ :: rest := by
  let p : Piece := ⟨.word, 'e', []⟩
  have hmunch : Munch p.shape p.chars ((powerText width power).drop 1) := by
    refine .word (by decide) rfl ?_
    rintro c ⟨⟩
    split
    · decide
    · decide
  have hread : p.reading? = some ⟨.identifier, "e", .nil, 0⟩ := by decide
  exact ⟨_, readings_append hmunch hread⟩

/-- The tokens of a source, without their lines. -/
theorem map_unplaced_tokens_source (source : String) :
    (tokens source).map Token.unplaced = readings source.toList ++ [.endOfInput 0] := by
  have hbody : (sequence source).body.map Token.unplaced = readings source.toList := map_unplaced_tokens _ 1 0
  rw [tokens, Sequence.toList, List.map_append, hbody]
  rfl

end Scan

end LoxSyntax
