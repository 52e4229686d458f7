/-
# LoxSyntax.Parse.Basic -- expressions from tokens

The grammar, from the loosest level to the tightest, every binary level associating to the left:

    expression -> equality
    equality   -> comparison ( ( "!=" | "==" ) comparison )*
    comparison -> term ( ( ">" | ">=" | "<" | "<=" ) term )*
    term       -> factor ( ( "-" | "+" ) factor )*
    factor     -> unary ( ( "/" | "*" ) unary )*
    unary      -> ( "!" | "-" ) unary | primary
    primary    -> NUMBER | STRING | "true" | "false" | "nil" | "(" expression ")"

The parser keeps a STACK of what has been begun and waits for an operand: unary operators, binary
operators with their left operand, and open parentheses. It holds an operand or it wants one. An
operator first CLOSES what binds at least as tightly as it does, which is what makes every level
associate to the left; a closing parenthesis closes everything down to the open one. Each token is
looked at once, and a token that cannot be taken ends the parse: the expression is complete if an
operand is held and no parenthesis is open.

Open parentheses and signs are bounded: each has a cost, and a parse whose stack would cost more than
the limit is given up. Without a limit nothing is given up.
-/
import LoxSyntax.Parse.Level
import LoxSyntax.Expr.Basic
import LoxSyntax.Diagnostic.Basic

namespace LoxSyntax.Parse

/-! ## What has been begun -/

/-- A part of an expression that waits for an operand. -/
inductive Frame where
  | unary (operator : Token)
  | binary (left : Expr) (operator : Token)
  | group
  deriving DecidableEq

/-- What a parser keeps: the frames it has begun, the innermost first, and the operand it holds. -/
structure State where
  stack : List Frame
  held : Option Expr

/-- The state in which an expression is begun. -/
def State.start : State := ⟨[], none⟩

/-- The level of a frame; an open parenthesis has none. -/
def Frame.level? : Frame → Option Level
  | .unary _ => some .unary
  | .binary _ operator => operator.kind.level?
  | .group => none

/-- Gives a frame the operand it waits for. -/
def Frame.close : Frame → Expr → Expr
  | .unary operator, operand => .unary operator operand
  | .binary left operator, right => .binary left operator right
  | .group, inner => .grouping inner

/-- Closes the innermost frames with an operand as long as they bind at least as tightly as a rank. -/
def closeFrom (rank : Nat) : List Frame → Expr → List Frame × Expr
  | [], e => ([], e)
  | frame :: stack, e =>
    match frame.level? with
    | some level => if rank ≤ level.rank then closeFrom rank stack (frame.close e) else (frame :: stack, e)
    | none => (frame :: stack, e)

/-! ## The bound on nesting -/

/-- What an open frame counts against the bound. -/
def Frame.cost : Frame → Nat
  | .unary _ => 1
  | .binary _ _ => 0
  | .group => 11

/-- What a stack counts against the bound. -/
def cost : List Frame → Nat
  | [] => 0
  | frame :: stack => frame.cost + cost stack

/-- Whether a stack is within a bound; where there is none, every stack is. -/
def Within (limit : Option Nat) (stack : List Frame) : Prop := ∀ n ∈ limit, cost stack ≤ n

instance (limit : Option Nat) (stack : List Frame) : Decidable (Within limit stack) :=
  match limit with
  | none => .isTrue fun _ h => nomatch h
  | some n =>
    if h : cost stack ≤ n then .isTrue fun m hm => by cases hm; exact h
    else .isFalse fun w => h (w n rfl)

/-- The bound that is used when none is asked for. -/
def defaultLimit : Option Nat := some 1000

/-! ## Steps -/

/-- How a parse ends. -/
inductive Verdict where
  | complete (e : Expr)
  | rejected (cause : Cause)
  deriving DecidableEq

/-- The end of a parse at a token that cannot be taken. -/
def State.finish (s : State) : Verdict :=
  match s.held with
  | none => .rejected .expectedExpression
  | some e =>
    match closeFrom 0 s.stack e with
    | ([], e) => .complete e
    | _ => .rejected .expectedParenthesis

/-- Begins a frame, if that stays within the bound. -/
def push (limit : Option Nat) (frame : Frame) (stack : List Frame) : Except Verdict State :=
  if Within limit (frame :: stack) then .ok ⟨frame :: stack, none⟩
  else .error (.rejected .nestedTooDeeply)

/-- Takes a token where an operand is wanted. -/
def wanting (limit : Option Nat) (stack : List Frame) (t : Token) : Except Verdict State :=
  match t.operand? with
  | some value => .ok ⟨stack, some (.literal value)⟩
  | none =>
    if t.kind.isUnary then push limit (.unary t) stack
    else if t.kind = .leftParen then push limit .group stack
    else .error (.rejected .expectedExpression)

/-- Takes a token where an operand is held. -/
def holding (stack : List Frame) (e : Expr) (t : Token) : Except Verdict State :=
  match t.kind.level? with
  | some level =>
    let (stack, left) := closeFrom level.rank stack e
    .ok ⟨.binary left t :: stack, none⟩
  | none =>
    match closeFrom 0 stack e with
    | (.group :: outer, inner) =>
      if t.kind = .rightParen then .ok ⟨outer, some (.grouping inner)⟩
      else .error (.rejected .expectedParenthesis)
    | (_, whole) => .error (.complete whole)

/-- Takes a token, or ends the parse at it. -/
def step (limit : Option Nat) (s : State) (t : Token) : Except Verdict State :=
  match s.held with
  | none => wanting limit s.stack t
  | some e => holding s.stack e t

/-- The end of a parse, and the tokens that were not taken. -/
structure Outcome where
  verdict : Verdict
  rest : List Token

/-- Takes tokens from a state on, as long as they can be taken. -/
def run (limit : Option Nat) (s : State) : List Token → Outcome
  | [] => ⟨s.finish, []⟩
  | t :: rest =>
    match step limit s t with
    | .ok next => run limit next rest
    | .error verdict => ⟨verdict, t :: rest⟩

/-- The expression that a list of tokens starts with. -/
def expression (limit : Option Nat) (tokens : List Token) : Outcome := run limit .start tokens

end LoxSyntax.Parse
