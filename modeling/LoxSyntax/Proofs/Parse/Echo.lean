/-
# LoxSyntax.Proofs.Parse.Echo -- the lines that reporting writes

A reporter that echoes ends every diagnostic with a line feed, so the diagnostics are the lines of what it
writes exactly if none of them has a line feed itself (`lines_echoAll_iff`). The fixed words have none, and
the line is a number; what is left is the lexeme of the token that is blamed. Of the tokens of a source only
a string can have a line feed, and a string is an operand: it is never blamed for a missing operand, nor for
nesting, but behind an operand it is blamed for a missing parenthesis.
-/
import LoxSyntax.Parse.Parser
import LoxSyntax.Proofs.Expr.ReversePolish
import LoxSyntax.Proofs.Parse.Run
import LoxSyntax.Proofs.Session.Prompt

namespace LoxSyntax

/-! ## Lines of a reporter -/

theorem Text.LinesOf.not_mem {text line : List Char} {ls : List (List Char)} (h : LinesOf text ls)
    (hline : line ∈ ls) : '\n' ∉ line := by
  induction h with
  | nil => cases hline
  | last _ hno =>
      obtain rfl := List.mem_singleton.1 hline
      exact hno
  | ended hno _ ih =>
      rcases List.mem_cons.1 hline with rfl | hline
      · exact hno
      · exact ih hline

/-- Texts that are ended by a line feed each are the lines of what they make exactly if none of them has one
itself. -/
theorem Text.lines_flatMap_iff {α : Type} (f : α → List Char) (xs : List α) :
    lines (xs.flatMap fun x => f x ++ ['\n']) = xs.map f ↔ ∀ x ∈ xs, '\n' ∉ f x := by
  constructor
  · intro hlines x hx
    apply (linesOf_lines (xs.flatMap fun x => f x ++ ['\n'])).not_mem
    rw [hlines]
    exact List.mem_map_of_mem hx
  · intro hno
    induction xs with
    | nil => rfl
    | cons x xs ih =>
        rw [List.forall_mem_cons] at hno
        rw [List.flatMap_cons, List.append_assoc, List.singleton_append, lines_append_newline hno.1, ih hno.2,
          List.map_cons]

namespace Reporter

variable {r : Reporter} {ds : List Diagnostic}

/-- The text that reporting diagnostics, one after the other, writes. -/
def echoAll (r : Reporter) (ds : List Diagnostic) : String := String.join (ds.map r.echo)

theorem toList_echoAll (h : r.echoes = true) (ds : List Diagnostic) :
    (r.echoAll ds).toList = ds.flatMap fun d => d.text.toList ++ ['\n'] := by
  induction ds with
  | nil => rfl
  | cons d ds ih =>
      have hecho : (r.echo d).toList = d.text.toList ++ ['\n'] := by
        rw [echo, if_pos h, String.toList_append]
        rfl
      rw [echoAll, List.map_cons, String.join_cons, String.toList_append, hecho, List.flatMap_cons, ← ih, echoAll]

/-- The diagnostics are the lines of the text that is written exactly if each of them is one line. -/
theorem lines_echoAll_iff (h : r.echoes = true) :
    Text.lines (r.echoAll ds).toList = ds.map (·.text.toList) ↔ ∀ d ∈ ds, '\n' ∉ d.text.toList := by
  rw [toList_echoAll h]
  exact Text.lines_flatMap_iff _ ds

end Reporter

/-! ## Line feeds of diagnostics -/

theorem not_mem_toString_nat (n : Nat) : '\n' ∉ (toString n).toList := by
  intro h
  have hdigit := Nat.isDigit_of_mem_toDigits (by decide) (by decide) (Nat.toList_repr ▸ h)
  revert hdigit
  decide

theorem not_mem_toString (n : Int) : '\n' ∉ (toString n).toList := by
  cases n with
  | ofNat n => exact not_mem_toString_nat n
  | negSucc n =>
      show '\n' ∉ ("-" ++ toString (n + 1)).toList
      rw [String.toList_append, List.mem_append, not_or]
      exact ⟨by decide, not_mem_toString_nat _⟩

namespace Diagnostic

theorem mem_text_iff (d : Diagnostic) :
    '\n' ∈ d.text.toList ↔ '\n' ∈ d.place.toList ∨ '\n' ∈ d.message.toList := by
  have hline : '\n' ∉ d.line.repr.toList := not_mem_toString d.line
  simp [text, hline]

theorem mem_placeOf_iff (t : Token) :
    '\n' ∈ (placeOf t).toList ↔ t.isEnd = false ∧ '\n' ∈ t.lexeme.toList := by
  unfold placeOf
  split <;> simp_all

end Diagnostic

theorem Cause.not_mem_message (cause : Cause) : '\n' ∉ cause.message.toList := by
  cases cause <;> decide

/-- The faults of a source are reported in one line each: they show nothing of the source. -/
theorem Scan.not_mem_text_of_mem_diagnostics {source : String} {d : Diagnostic} (h : d ∈ diagnostics source) :
    '\n' ∉ d.text.toList := by
  obtain ⟨fault, hfault, rfl⟩ := List.mem_map.1 h
  obtain ⟨here, -, hhere⟩ := List.mem_filterMap.1 hfault
  have hmessage : '\n' ∉ fault.message.toList := by
    unfold Placed.fault? at hhere
    split at hhere
    · cases hhere
      exact Cause.not_mem_message .unexpectedCharacter
    · cases hhere
      exact Cause.not_mem_message .unterminatedString
    · cases hhere
  rw [Diagnostic.mem_text_iff, not_or]
  exact ⟨List.not_mem_nil, hmessage⟩

/-! ## Line feeds of tokens -/

/-- No token of a source has a line feed in it but a string. -/
theorem Token.IsRead.not_mem_lexeme {t : Token} (h : t.IsRead) (hkind : t.kind ≠ .string) :
    '\n' ∉ t.lexeme.toList := by
  obtain ⟨p, rest, hmunch, hlexeme, hreads⟩ := h.exists_piece
  rw [hlexeme, Scan.Piece.text, String.toList_ofList]
  exact Scan.not_mem_of_readsAs (.inr rfl) hmunch hreads hkind

theorem Scan.not_mem_lexeme {source : String} {t : Token} (h : t ∈ tokens source) (hkind : t.kind ≠ .string) :
    '\n' ∉ t.lexeme.toList := by
  rcases List.mem_append.1 h with hmem | hmem
  · exact Token.IsRead.not_mem_lexeme ⟨source, t, hmem, rfl⟩ hkind
  · obtain rfl := List.mem_singleton.1 hmem
    exact List.not_mem_nil

/-! ## Refusals -/

/-- A string can be taken wherever an operand is wanted, so it can only be refused behind one. -/
theorem Parse.Stop.cause_of_string {limit : Option Nat} {s : State} {t : Token} {cause : Cause}
    (h : Stop limit s t (.rejected cause)) (hkind : t.kind = .string) : cause = .expectedParenthesis := by
  cases h with
  | noOperand hoperand _ _ => simp [Token.operand?, hkind] at hoperand
  | tooDeep hopens _ => simp [Kind.isUnary, hkind] at hopens
  | unclosed _ _ _ => rfl

/-- The diagnostic of a refusal has a line feed exactly if a string is refused that has one. -/
theorem Rejection.mem_text_iff {t : Token} {source : String} (ht : t ∈ Scan.tokens source) (cause : Cause) :
    '\n' ∈ (Rejection.ofCause cause t).diagnostic.text.toList ↔ t.kind = .string ∧ '\n' ∈ t.lexeme.toList := by
  rw [Diagnostic.mem_text_iff]
  show _ ∈ (Diagnostic.placeOf t).toList ∨ _ ∈ cause.message.toList ↔ _
  rw [or_iff_left cause.not_mem_message, Diagnostic.mem_placeOf_iff]
  constructor
  · rintro ⟨-, hspans⟩
    refine ⟨?_, hspans⟩
    by_contra hkind
    exact Scan.not_mem_lexeme ht hkind hspans
  · rintro ⟨hkind, hspans⟩
    exact ⟨by simp [Token.isEnd, hkind], hspans⟩

namespace Parser

/-- A parse refuses a string that stands on more than one line. -/
def RefusesSpanning (limit : Option Nat) (p : Parser) : Prop :=
  (p.parse limit).1 = none ∧ (p.parse limit).2.cursor.peek.kind = .string ∧
    '\n' ∈ (p.parse limit).2.cursor.peek.lexeme.toList

/-- The diagnostic of a parenthesis that is missing in front of the token at which a parse stops. -/
def missingParenthesis (limit : Option Nat) (p : Parser) : Diagnostic :=
  .atToken (p.parse limit).2.cursor.peek "Expect ')' after expression." (some "P002")

/-- A parser of a source either gives a tree and reports no more than the faults of the source, or refuses
the token at which it stops. -/
theorem ofSource_parse_cases (limit : Option Nat) (source : String) (r : Reporter) :
    (∃ e c, (ofSource source r).parse limit = (some e, ⟨c, r.reportAll (Scan.diagnostics source)⟩)) ∨
      ∃ c last cause, c.peek ∈ Scan.tokens source ∧ Parse.Stop limit last c.peek (.rejected cause) ∧
        (ofSource source r).parse limit = (none, ⟨c, r.reportAll (Scan.diagnostics source ++
          [(Rejection.ofCause cause c.peek).diagnostic])⟩) := by
  have hplace : (ofSource source r).cursor.position < (ofSource source r).cursor.tokens.length :=
    Nat.succ_pos _
  obtain ⟨taken, last, t, v, hattempt⟩ := Parse.exists_attempt limit hplace
  have hparse := hattempt.parse_eq
  cases v with
  | complete e =>
      refine .inl ⟨e, (ofSource source r).cursor.forward taken.length, ?_⟩
      rw [parse, hparse]
      rfl
  | rejected cause =>
      obtain ⟨more, hrest⟩ := hattempt.rest
      have ht : t ∈ Scan.tokens source := by
        have hall : Scan.tokens source = taken ++ t :: more := hrest
        rw [hall]
        exact List.mem_append_right _ List.mem_cons_self
      refine .inr ⟨(ofSource source r).cursor.forward taken.length, last, cause, ?_⟩
      rw [hattempt.peek_eq]
      refine ⟨ht, hattempt.stop, ?_⟩
      rw [parse, hparse, ← Reporter.reportAll_reportAll]
      rfl

/-- Of what a parser of a source reports, one diagnostic at most has a line feed. -/
theorem exists_reported (limit : Option Nat) (source : String) (r : Reporter) :
    ∃ ds, ((ofSource source r).parse limit).2.reporter = r.reportAll ds ∧
      (RefusesSpanning limit (ofSource source r) → missingParenthesis limit (ofSource source r) ∈ ds) ∧
      ∀ d ∈ ds, '\n' ∈ d.text.toList ↔ RefusesSpanning limit (ofSource source r) ∧
        d = missingParenthesis limit (ofSource source r) := by
  unfold RefusesSpanning missingParenthesis
  rcases ofSource_parse_cases limit source r with ⟨e, c, heq⟩ | ⟨c, last, cause, ht, hstop, heq⟩
  · rw [heq]
    refine ⟨Scan.diagnostics source, rfl, fun h => absurd h.1 (by simp), ?_⟩
    intro d hd
    simp [Scan.not_mem_text_of_mem_diagnostics hd]
  · rw [heq]
    have hrefusal := Rejection.mem_text_iff ht cause
    have hcause (hkind : c.peek.kind = .string) : (Rejection.ofCause cause c.peek).diagnostic =
        .atToken c.peek "Expect ')' after expression." (some "P002") := by
      obtain rfl := hstop.cause_of_string hkind
      rfl
    refine ⟨_, rfl, ?_, ?_⟩
    · rintro ⟨-, hkind, -⟩
      rw [← hcause hkind]
      exact List.mem_append_right _ (List.mem_singleton_self _)
    · intro d hd
      rcases List.mem_append.1 hd with hd | hd
      · -- a fault of the source has no line feed, so it is not the diagnostic that has one
        refine iff_of_false (Scan.not_mem_text_of_mem_diagnostics hd) ?_
        rintro ⟨⟨-, hspanning⟩, rfl⟩
        apply Scan.not_mem_text_of_mem_diagnostics hd
        rw [← hcause hspanning.1]
        exact hrefusal.2 hspanning
      · obtain rfl := List.mem_singleton.1 hd
        rw [hrefusal]
        constructor
        · intro hspanning
          exact ⟨⟨rfl, hspanning⟩, hcause hspanning.1⟩
        · rintro ⟨⟨-, hspanning⟩, -⟩
          exact hspanning

/-- Diagnostics are echoed in one line each, with one exception. While a parser of a source echoes, the
diagnostics it reports are the lines of what it writes, unless the parse is refused at a string that stands
on more than one line. Then one diagnostic has a line feed, that of the parenthesis missing in front of the
string, because it shows the string as it stands in the source. -/
theorem echo_is_one_line_each_iff (limit : Option Nat) (source : String) (r : Reporter)
    (h : r.echoes = true) :
    ∃ ds, ((ofSource source r).parse limit).2.reporter = r.reportAll ds ∧
      (Text.lines (r.echoAll ds).toList = ds.map (·.text.toList) ↔
        ¬ RefusesSpanning limit (ofSource source r)) ∧
      ∀ d ∈ ds, '\n' ∈ d.text.toList ↔
        RefusesSpanning limit (ofSource source r) ∧ d = missingParenthesis limit (ofSource source r) := by
  obtain ⟨ds, hreporter, hblamed, hiff⟩ := exists_reported limit source r
  refine ⟨ds, hreporter, ?_, hiff⟩
  rw [Reporter.lines_echoAll_iff h]
  constructor
  · intro hno hspans
    have hmem := hblamed hspans
    exact hno _ hmem ((hiff _ hmem).2 ⟨hspans, rfl⟩)
  · intro hnot d hd hmem
    exact hnot ((hiff d hd).1 hmem).1

/-- The stray character and the parenthesis that is missing make two lines. -/
theorem echo_of_string_on_one_line :
    let r : Reporter := .empty true
    let held := ((ofSource "@ (1 \"a\"" r).parse Parse.defaultLimit).2.reporter.held
    r.echoes = true ∧ held.length = 2 ∧ Text.lines (r.echoAll held).toList = held.map (·.text.toList) := by
  intro r held
  have hechoes : r.echoes = true := rfl
  have hlength : held.length = 2 := by decide +kernel
  obtain ⟨ds, hreporter, hlines, -⟩ :=
    echo_is_one_line_each_iff Parse.defaultLimit "@ (1 \"a\"" r hechoes
  have hheld : held = ds := congrArg Reporter.held hreporter
  refine ⟨hechoes, hlength, ?_⟩
  rw [hheld]
  refine hlines.2 ?_
  rintro ⟨-, -, hspans⟩
  revert hspans
  decide +kernel

/-- A string that goes on to the next line makes two lines of its one diagnostic. -/
theorem echo_of_string_on_two_lines :
    let r : Reporter := .empty true
    let held := ((ofSource "(1 \"a\nb\"" r).parse Parse.defaultLimit).2.reporter.held
    held.map Diagnostic.text = ["[line 1] Error at '\"a\nb\"': Expect ')' after expression."] ∧
      (Text.lines (r.echoAll held).toList).map String.ofList =
        ["[line 1] Error at '\"a", "b\"': Expect ')' after expression."] := by
  decide +kernel

end Parser

end LoxSyntax
