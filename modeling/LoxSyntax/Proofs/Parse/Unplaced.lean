/-
# LoxSyntax.Proofs.Parse.Unplaced -- parsing does not look at lines

The parser looks at the kinds of tokens and at the values of operands, and at nothing else. A change of
tokens that keeps both is SAFE: it can be made before a parse or after it, to the operators of the tree,
with the same outcome (`run_map`). One safe change is to forget the lines of the tokens, so sequences that
agree up to lines have trees and refusals that agree up to lines (`Parser.parse_unplaced`).
-/
import LoxSyntax.Expr.Printer
import LoxSyntax.Expr.Source
import LoxSyntax.Parse.Parser
import LoxSyntax.Proofs.Parse.Run

namespace LoxSyntax

namespace Parse

/-! ## Safe changes -/

/-- A change of tokens keeps what the parser looks at. -/
structure IsSafe (f : Token → Token) : Prop where
  kind : ∀ t, (f t).kind = t.kind
  operand? : ∀ t, (f t).operand? = t.operand?

def Frame.map (f : Token → Token) : Frame → Frame
  | .unary operator => .unary (f operator)
  | .binary left operator => .binary (left.mapOperators f) (f operator)
  | .group => .group

def State.map (f : Token → Token) (s : State) : State :=
  ⟨s.stack.map (Frame.map f), s.held.map (Expr.mapOperators f)⟩

def Verdict.map (f : Token → Token) : Verdict → Verdict
  | .complete e => .complete (e.mapOperators f)
  | .rejected cause => .rejected cause

def Outcome.map (f : Token → Token) (o : Outcome) : Outcome := ⟨o.verdict.map f, o.rest.map f⟩

variable {f : Token → Token} {limit : Option Nat} {s s' : State} {t : Token} {v : Verdict}

theorem IsSafe.level?_map (hf : IsSafe f) (frame : Frame) : (frame.map f).level? = frame.level? := by
  cases frame <;> simp [Frame.map, Frame.level?, hf.kind]

theorem close_map (frame : Frame) (e : Expr) :
    (frame.map f).close (e.mapOperators f) = (frame.close e).mapOperators f := by
  cases frame <;> rfl

theorem cost_map (stack : List Frame) : cost (stack.map (Frame.map f)) = cost stack := by
  induction stack with
  | nil => rfl
  | cons frame stack ih =>
      have hframe : (frame.map f).cost = frame.cost := by cases frame <;> rfl
      simp only [List.map_cons, cost, hframe, ih]

theorem within_map (stack : List Frame) :
    Within limit (stack.map (Frame.map f)) ↔ Within limit stack := by
  simp only [Within, cost_map]

theorem IsSafe.closeFrom_map (hf : IsSafe f) (rank : Nat) (stack : List Frame) (e : Expr) :
    closeFrom rank (stack.map (Frame.map f)) (e.mapOperators f) =
      ((closeFrom rank stack e).1.map (Frame.map f), (closeFrom rank stack e).2.mapOperators f) := by
  induction stack generalizing e with
  | nil => rfl
  | cons frame stack ih =>
      rw [List.map_cons, closeFrom, closeFrom, hf.level?_map, close_map, ih]
      cases frame.level? with
      | none => rfl
      | some level => by_cases hle : rank ≤ level.rank <;> simp [hle]

/-! ## Runs -/

theorem Move.map (hf : IsSafe f) (h : Move limit s t s') : Move limit (s.map f) (f t) (s'.map f) := by
  cases h with
  | operand hv => exact .operand (by rw [hf.operand?, hv])
  | sign hunary hw =>
      exact .sign (by rw [hf.kind, hunary]) ((within_map (.unary t :: _)).2 hw)
  | opening hopen hw => exact .opening (by rw [hf.kind, hopen]) ((within_map (.group :: _)).2 hw)
  | operator hlevel hclosed =>
      exact .operator (by rw [hf.kind, hlevel]) (by rw [hf.closeFrom_map, hclosed])
  | closing hclose hclosed =>
      exact .closing (by rw [hf.kind, hclose]) (by rw [hf.closeFrom_map, hclosed]; rfl)

theorem Stop.map (hf : IsSafe f) (h : Stop limit s t v) : Stop limit (s.map f) (f t) (v.map f) := by
  cases h with
  | noOperand hv hunary hopen =>
      exact .noOperand (by rw [hf.operand?, hv]) (by rw [hf.kind, hunary]) (by rwa [hf.kind])
  | @tooDeep stack _ frame hframe hw =>
      have hframe' : ((f t).kind.isUnary = true ∧ frame.map f = .unary (f t)) ∨
          ((f t).kind = .leftParen ∧ frame.map f = .group) := by
        rcases hframe with ⟨hunary, rfl⟩ | ⟨hopen, rfl⟩
        · exact .inl ⟨by rw [hf.kind, hunary], rfl⟩
        · exact .inr ⟨by rw [hf.kind, hopen], rfl⟩
      have hw' : ¬ Within limit (frame.map f :: stack.map (Frame.map f)) := by
        rwa [← List.map_cons, within_map]
      exact .tooDeep hframe' hw'
  | unclosed hlevel hclose hclosed =>
      exact .unclosed (by rw [hf.kind, hlevel]) (by rwa [hf.kind]) (by rw [hf.closeFrom_map, hclosed]; rfl)
  | @whole stack outer e whole _ hlevel hclosed hno =>
      refine .whole (by rw [hf.kind, hlevel]) (by rw [hf.closeFrom_map, hclosed]) ?_
      intro below hbelow
      obtain ⟨frame, stack', rfl, hframe, _⟩ := List.map_eq_cons_iff.1 hbelow
      -- only an open parenthesis is changed into one
      cases frame with
      | group => exact hno _ rfl
      | unary operator => cases hframe
      | binary left operator => cases hframe

theorem IsSafe.finish_map (hf : IsSafe f) (s : State) : (s.map f).finish = s.finish.map f := by
  obtain ⟨stack, held⟩ := s
  cases held with
  | none => rfl
  | some e =>
      simp only [State.map, State.finish, Option.map_some, hf.closeFrom_map]
      obtain ⟨outer, whole⟩ := closeFrom 0 stack e
      cases outer <;> rfl

/-- A safe change of the tokens changes the outcome of a run likewise. -/
theorem IsSafe.run_map (hf : IsSafe f) (s : State) (tokens : List Token) :
    run limit (s.map f) (tokens.map f) = (run limit s tokens).map f := by
  induction tokens generalizing s with
  | nil =>
      rw [List.map_nil, run, run, hf.finish_map]
      rfl
  | cons t rest ih =>
      rcases move_or_stop limit s t with ⟨next, hm⟩ | ⟨v, hs⟩
      · rw [List.map_cons, run, (hm.map hf).step_eq, run, hm.step_eq]
        exact ih next
      · rw [List.map_cons, (hs.map hf).run_eq, hs.run_eq]
        rfl

end Parse

/-! ## Without lines -/

theorem isSafe_unplaced : Parse.IsSafe Token.unplaced := ⟨fun _ => rfl, fun _ => rfl⟩

/-- A diagnostic without its line. -/
def Diagnostic.unplaced (d : Diagnostic) : Diagnostic := { d with line := 0 }

/-- A refusal without lines. -/
def Rejection.unplaced (r : Rejection) : Rejection := ⟨r.diagnostic.unplaced, r.token.map .unplaced⟩

/-- A sequence of tokens without their lines. -/
def Sequence.unplaced (s : Sequence) : Sequence :=
  ⟨s.body.map .unplaced, s.last.unplaced, s.last_isEnd⟩

theorem Sequence.eq_of_parts {s s' : Sequence} (hbody : s.body = s'.body) (hlast : s.last = s'.last) :
    s = s' := by
  cases s
  cases s'
  cases hbody
  cases hlast
  rfl

theorem Sequence.toList_unplaced (s : Sequence) : s.unplaced.toList = s.toList.map .unplaced := by
  simp [toList, Sequence.unplaced]

def Cursor.unplaced (c : Cursor) : Cursor := ⟨c.tokens.unplaced, c.position⟩

def Reporter.unplaced (r : Reporter) : Reporter := { r with held := r.held.map .unplaced }

def Parser.unplaced (p : Parser) : Parser := ⟨p.cursor.unplaced, p.reporter.unplaced⟩

namespace Cursor

theorem peek_unplaced (c : Cursor) : c.unplaced.peek = c.peek.unplaced := by
  simp only [Cursor.unplaced, peek, Sequence.get, Sequence.unplaced, List.getD_eq_getElem?_getD,
    List.getElem?_map]
  cases c.tokens.body[c.position]? <;> rfl

theorem rest_unplaced (c : Cursor) : c.unplaced.rest = c.rest.map .unplaced := by
  rw [rest, rest, List.map_drop, ← Sequence.toList_unplaced]
  rfl

theorem moveTo_unplaced (c : Cursor) (rest : List Token) :
    c.unplaced.moveTo (rest.map .unplaced) = (c.moveTo rest).unplaced := by
  simp [Cursor.unplaced, moveTo, Sequence.length, Sequence.unplaced]

/-- What is refused, and where, does not depend on lines; nor does a tree but for the lines in it. -/
theorem parse_unplaced (limit : Option Nat) (c : Cursor) :
    c.unplaced.parse limit =
      match c.parse limit with
      | (.ok e, after) => (.ok e.unplaced, after.unplaced)
      | (.error r, after) => (.error r.unplaced, after.unplaced) := by
  have hout : Parse.expression limit c.unplaced.rest =
      (Parse.expression limit c.rest).map .unplaced := by
    rw [rest_unplaced]
    exact isSafe_unplaced.run_map .start c.rest
  simp only [parse, hout]
  obtain ⟨verdict, rest⟩ := Parse.expression limit c.rest
  simp only [Parse.Outcome.map, moveTo_unplaced]
  cases verdict with
  | complete e => rfl
  | rejected cause =>
      simp only [Parse.Verdict.map, peek_unplaced]
      rfl

end Cursor

/-- A parser of tokens without lines does what the parser of the tokens does, without lines. -/
theorem Parser.parse_unplaced (limit : Option Nat) (p : Parser) :
    p.unplaced.parse limit = ((p.parse limit).1.map .unplaced, (p.parse limit).2.unplaced) := by
  have hcursor := p.cursor.parse_unplaced limit
  simp only [parse, Parser.unplaced, hcursor]
  obtain ⟨answer, after⟩ := p.cursor.parse limit
  cases answer with
  | ok e => rfl
  | error r => simp [Reporter.report, Reporter.unplaced, Rejection.unplaced]

/-! ## Prints -/

namespace Expr

theorem parenthesized_unplaced (e : Expr) : e.unplaced.parenthesized = e.parenthesized := by
  induction e <;> simp_all [Expr.unplaced, mapOperators, parenthesized]

theorem reversePolish_unplaced (e : Expr) : e.unplaced.reversePolish = e.reversePolish := by
  induction e <;> simp_all [Expr.unplaced, mapOperators, reversePolish]

/-- Trees that agree up to lines have the same print if the print does not show lines. -/
theorem map_eq_of_map_unplaced {print : Expr → String} (hprint : ∀ e : Expr, print e.unplaced = print e)
    {a b : Option Expr} (h : a.map Expr.unplaced = b.map Expr.unplaced) : a.map print = b.map print := by
  have hmap : (a.map Expr.unplaced).map print = (b.map Expr.unplaced).map print := by rw [h]
  simpa only [Option.map_map, Function.comp_def, hprint] using hmap

end Expr

end LoxSyntax
