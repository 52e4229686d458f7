/-
# LoxSyntax.Proofs.Parse.RoundTrip -- a tree written as a source is read back as the tree

A tree is WRITTEN with its operators, the tokens of its values, and parentheses. These tokens are a yield of
the tree, their lexemes are those of its source, and they are legible if the operators are spelled and the
values can be written. The lexemes of a source are laid out with spaces, so the source is read as these
tokens, up to lines; and these are parsed as the tree, if it is canonical and the bound leaves room for it.
The parser does not look at lines, so that is what the source is parsed as.
-/
import LoxSyntax.Proofs.Parse.Layout
import LoxSyntax.Proofs.Parse.Yield
import LoxSyntax.Proofs.Scan.Lexeme

namespace LoxSyntax

variable {e : Expr}

namespace Expr

/-! ## Tokens of a tree -/

/-- An open parenthesis on no line. -/
def openParen : Token := ⟨.leftParen, "(", .nil, 0⟩

/-- A closing parenthesis on no line. -/
def closeParen : Token := ⟨.rightParen, ")", .nil, 0⟩

/-- The tokens that a tree is written with; those of parentheses and values are on no line. -/
def written : Expr → List Token
  | literal value => [value.token]
  | grouping inner => openParen :: inner.written ++ [closeParen]
  | unary operator operand => operator :: operand.written
  | binary left operator right => left.written ++ operator :: right.written

theorem yields_written (e : Expr) : e.Yields e.written := by
  induction e with
  | literal value => exact .literal value.operand?_token
  | grouping inner ih => exact .grouping rfl ih rfl
  | unary operator operand ih => exact .unary ih
  | binary left operator right ihl ihr => exact .binary ihl ihr

theorem map_lexeme_written (e : Expr) : e.written.map Token.lexeme = e.lexemes := by
  induction e with
  | literal value => simp [written, lexemes, value.lexeme_token]
  | grouping inner ih => simp [written, lexemes, openParen, closeParen, ih]
  | unary operator operand ih => simp [written, lexemes, ih]
  | binary left operator right ihl ihr => simp [written, lexemes, ihl, ihr]

theorem lexemes_ne_nil (e : Expr) : e.lexemes ≠ [] := by
  cases e <;> simp [lexemes]

/-! ## What the tokens are -/

/-- A tree is written with parentheses, the tokens of its values and its operators. -/
theorem forall_mem_written {P : Token → Prop} (hopen : P openParen) (hclose : P closeParen)
    (hliterals : ∀ value ∈ e.literals, P value.token) (hbinary : ∀ t ∈ e.operators .binary, P t)
    (hunary : ∀ t ∈ e.operators .unary, P t) : ∀ t ∈ e.written, P t := by
  induction e with
  | literal value => simpa [written] using hliterals value (by simp [literals])
  | grouping inner ih =>
      rw [operators_grouping] at hbinary hunary
      have hinner := ih hliterals hbinary hunary
      simp only [written, List.forall_mem_append, List.forall_mem_cons]
      exact ⟨⟨hopen, hinner⟩, hclose, by simp⟩
  | unary operator operand ih =>
      rw [operators_unary, if_neg (by decide), List.nil_append] at hbinary
      rw [operators_unary, if_pos rfl, List.singleton_append, List.forall_mem_cons] at hunary
      exact List.forall_mem_cons.2 ⟨hunary.1, ih hliterals hbinary hunary.2⟩
  | binary left operator right ihl ihr =>
      rw [operators_binary, if_pos rfl, List.singleton_append, List.forall_mem_cons,
        List.forall_mem_append] at hbinary
      rw [operators_binary, if_neg (by decide), List.nil_append, List.forall_mem_append] at hunary
      rw [literals, List.forall_mem_append] at hliterals
      obtain ⟨hoperator, hbinaryl, hbinaryr⟩ := hbinary
      have hleft := ihl hliterals.1 hbinaryl hunary.1
      have hright := ihr hliterals.2 hbinaryr hunary.2
      exact List.forall_mem_append.2 ⟨hleft, List.forall_mem_cons.2 ⟨hoperator, hright⟩⟩

/-- Where operators are spelled and values can be written, every token is legible. -/
theorem legible_written (hs : e.OperatorsSpelled) (hw : ∀ value ∈ e.literals, value.IsWritten) :
    ∀ t ∈ e.written, Scan.Legible t := by
  refine forall_mem_written ?_ ?_ ?_ ?_ ?_
  · exact Scan.legible_of_mem_fixedLexemes (by decide) rfl
  · exact Scan.legible_of_mem_fixedLexemes (by decide) rfl
  · exact fun value hvalue => Scan.legible_token (hw value hvalue)
  · intro t ht
    obtain ⟨hmem, hliteral⟩ := hs.1 t ht
    exact Scan.legible_of_mem_fixedLexemes (List.mem_append_left _ (List.mem_append_left _ hmem)) hliteral
  · intro t ht
    obtain ⟨hmem, hliteral⟩ := hs.2 t ht
    exact Scan.legible_of_mem_fixedLexemes (List.mem_append_left _ (List.mem_append_right _ hmem)) hliteral

end Expr

/-! ## Reading back -/

/-- The tokens that a tree is written with, closed by an end of the input. -/
def Expr.sequence (e : Expr) : Sequence := ⟨e.written, .endOfInput 0, rfl⟩

/-- The source of a tree is read as the tokens that the tree is written with. -/
theorem Expr.sequence_source (hs : e.OperatorsSpelled) (hw : ∀ value ∈ e.literals, value.IsWritten) :
    (Scan.sequence e.source).unplaced = e.sequence.unplaced ∧ Scan.diagnostics e.source = [] := by
  have hlexemes : Scan.lexemesOf e.written = e.lexemes.map String.toList := by
    rw [← e.map_lexeme_written, List.map_map]
    rfl
  have hlaid : Scan.LaidOut (Scan.lexemesOf e.written) e.source.toList := by
    rw [hlexemes]
    exact Scan.laidOut_spaced e.lexemes_ne_nil
  obtain ⟨hbody, hfaultless⟩ := Scan.scan_laidOut hlaid (e.legible_written hs hw)
  exact ⟨Sequence.eq_of_parts hbody rfl, hfaultless⟩

namespace Parser

variable {limit : Option Nat} {p : Parser}

/-- A parse that gives a tree reports nothing. -/
theorem reporter_parse_of_eq_some (h : (p.parse limit).1 = some e) : (p.parse limit).2.reporter = p.reporter := by
  unfold parse at h ⊢
  generalize p.cursor.parse limit = answer at h ⊢
  obtain ⟨tree | rejection, after⟩ := answer
  · cases h
  · rfl

/-- The tokens that a canonical tree is written with are parsed as the tree. -/
theorem parse_start_written (hc : e.Canonical) (hnesting : ∀ n ∈ limit, e.nesting ≤ n) (reporter : Reporter) :
    ((start e.sequence reporter).parse limit).1 = some e := by
  have hroom : Parse.HasRoom limit [] e := by
    intro n hn
    simpa [Parse.cost] using hnesting n hn
  obtain ⟨last, hattempt⟩ := Parse.attempt_of_yields (c := Cursor.start e.sequence) (t := .endOfInput 0)
    e.yields_written hc hroom rfl rfl
  have hcursor : (start e.sequence reporter).cursor.parse limit = _ := hattempt.parse_eq
  rw [parse, hcursor]
  rfl

/-- Writing a tree as a source and parsing the source gives the tree. Let a canonical tree stay within the
bound on nesting, let its operators be spelled as their kinds are, and let its values be nil, truth values,
texts without quotes, and numbers that are displayed as numerals. Then nothing in its source is at fault,
parsing the source gives the tree, up to the lines of the operators, and nothing is reported. -/
theorem parse_source (limit : Option Nat) (e : Expr) (hc : e.Canonical)
    (hnesting : ∀ n ∈ limit, e.nesting ≤ n) (hs : e.OperatorsSpelled)
    (hw : ∀ value ∈ e.literals, value.IsWritten) (reporter : Reporter) :
    Scan.diagnostics e.source = [] ∧
      ((ofSource e.source reporter).parse limit).1.map Expr.unplaced = some e.unplaced ∧
      ((ofSource e.source reporter).parse limit).2.reporter = reporter := by
  obtain ⟨hsequence, hfaultless⟩ := e.sequence_source hs hw
  rw [ofSource_of_faultless hfaultless]
  obtain ⟨htree, _⟩ := parse_start_unplaced hsequence limit reporter
  rw [parse_start_written hc hnesting reporter, Option.map_some] at htree
  obtain ⟨e', heq, _⟩ := Option.map_eq_some_iff.1 htree
  exact ⟨hfaultless, htree, reporter_parse_of_eq_some heq⟩

/-- The tree of `! "//" == ( - 0.000001 )`, with a line feed in the text and operators from three lines.
The number is the least one above zero that has a numeral. -/
theorem negated_text_equals_group_is_read_back :
    let text := String.ofList ['/', '/', '\n']
    let millionth : Number.Double := .ofCode false 4517329193108106637
    let e : Expr := .binary (.unary ⟨.bang, "!", .nil, 7⟩ (.literal (.text text))) ⟨.equalEqual, "==", .nil, 3⟩
      (.grouping (.unary ⟨.minus, "-", .nil, 1⟩ (.literal (.number millionth))))
    e.Canonical ∧ (∀ n ∈ Parse.defaultLimit, e.nesting ≤ n) ∧ e.OperatorsSpelled ∧
      (∀ value ∈ e.literals, value.IsWritten) ∧ Scan.diagnostics e.source = [] ∧
      ((ofSource e.source (.empty false)).parse Parse.defaultLimit).1.map Expr.unplaced = some e.unplaced ∧
      ((ofSource e.source (.empty false)).parse Parse.defaultLimit).2.reporter = .empty false := by
  intro text millionth e
  have hc : e.Canonical := by
    refine ⟨⟨.equality, rfl, by decide, by decide⟩, ⟨rfl, by decide, trivial⟩, rfl, by decide, trivial⟩
  have hnesting : ∀ n ∈ Parse.defaultLimit, e.nesting ≤ n := by
    intro n hn
    cases hn
    decide
  have hs : e.OperatorsSpelled := by
    constructor <;> simp [e, Expr.operators, Expr.walk, Kind.binaryOperators, Kind.unaryOperators]
  have hnumeral : millionth.IsNumeral := by
    have hlt : 4517329193108106637 < Number.topCode := by decide
    have hfinite : millionth = .finite false ⟨4517329193108106637, hlt⟩ := Number.Double.ofCode_of_lt false hlt
    rw [hfinite]
    exact .inr ⟨Nat.le_of_eq Number.Decimal.nearestCode_millionth, Number.Decimal.millionth_lt_nearestCode⟩
  have hw : ∀ value ∈ e.literals, value.IsWritten := by
    have htext : Text.doubleQuote ∉ text.toList := by decide
    simpa [e, Expr.literals, Value.IsWritten] using And.intro htext hnumeral
  exact ⟨hc, hnesting, hs, hw, parse_source Parse.defaultLimit e hc hnesting hs hw (.empty false)⟩

end Parser

end LoxSyntax
