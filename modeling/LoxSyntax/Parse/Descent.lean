/-
# LoxSyntax.Parse.Descent -- the parser as rules that call one another

Every rule of the grammar is a function here, and a rule calls the rule of the next tighter level. The
functions work on a cursor through a few accesses: the token at the cursor is looked at, it is taken, or the
token before the cursor is looked at. A DESCENT is a cursor with a record of every access made so far, in
order, and where the cursor stood.

No frames are kept, and no bound is put on the calls. They end because tokens are taken: an `Answer` carries
that no more tokens remain than before, and `Taken` that fewer do where a token has been taken.
-/
import LoxSyntax.Parse.Cursor

namespace LoxSyntax

/-! ## Accesses -/

/-- An access through a cursor that stands at a position. What is found by looking back is used, or it is
discarded. -/
inductive Act where
  | look (position : Nat)
  | take (position : Nat)
  | lookBack (position : Nat) (used : Bool)
  deriving DecidableEq

/-- The place of the token before a position; before the first position it is the last place. -/
def Sequence.placeBefore (s : Sequence) : Nat → Nat
  | 0 => s.length - 1
  | position + 1 => position

theorem Sequence.get_placeBefore (s : Sequence) (position : Nat) :
    s.get (s.placeBefore position) = s.before position := by
  cases position with
  | zero => simp [placeBefore, before, get, length]
  | succ position => rfl

namespace Act

/-- Where the cursor stands at an access. -/
def position : Act → Nat
  | look position | take position | lookBack position _ => position

/-- Where the cursor stands after an access. -/
def after : Act → Nat
  | look position | lookBack position _ => position
  | take position => position + 1

/-- The place of the token that is read; taking a token does not read it. -/
def index? (s : Sequence) : Act → Option Nat
  | look position => some position
  | take _ => none
  | lookBack position _ => some (s.placeBefore position)

/-- The place of the token that is taken. -/
def taken? : Act → Option Nat
  | take position => some position
  | look _ | lookBack _ _ => none

/-- The place of the token that was taken last. -/
def lastTaken? (acts : List Act) : Option Nat := (acts.filterMap taken?).getLast?

end Act

/-- The kinds of the binary operators of a level. -/
def Level.operators : Level → List Kind
  | .equality => [.bangEqual, .equalEqual]
  | .comparison => [.greater, .greaterEqual, .less, .lessEqual]
  | .term => [.minus, .plus]
  | .factor => [.slash, .star]
  | .unary | .primary => []

/-- A cursor, and the accesses made through it. -/
structure Descent where
  cursor : Cursor
  acts : List Act

namespace Descent

/-- A descent that begins at the first place of a sequence. -/
def start (tokens : Sequence) : Descent := ⟨.start tokens, []⟩

/-! ## Access through the cursor -/

/-- Records an access. -/
def keep (act : Act) (d : Descent) : Descent := { d with acts := d.acts ++ [act] }

/-- The token at the cursor. -/
def peek (d : Descent) : Token × Descent := (d.cursor.peek, d.keep (.look d.cursor.position))

/-- The token before the cursor. -/
def previous (used : Bool) (d : Descent) : Token × Descent :=
  (d.cursor.previous, d.keep (.lookBack d.cursor.position used))

/-- Moves the cursor behind the token that it stands at. -/
def take (d : Descent) : Descent :=
  { d.keep (.take d.cursor.position) with
    cursor := { d.cursor with position := d.cursor.position + 1 } }

/-- Whether the cursor stands at an end of the input. -/
def atEnd (d : Descent) : Bool × Descent :=
  let (t, d) := d.peek
  (t.isEnd, d)

/-- Whether the token at the cursor has a kind; an end of the input is taken to have none. -/
def check (kind : Kind) (d : Descent) : Bool × Descent :=
  let ended := d.atEnd
  if ended.1 then (false, ended.2)
  else
    let next := ended.2.peek
    (next.1.kind = kind, next.2)

/-- Takes the token at the cursor, unless it is an end of the input, and gives the token before the cursor.
That token is discarded wherever a token is taken here. -/
def advance (d : Descent) : Token × Descent :=
  let ended := d.atEnd
  if ended.1 then ended.2.previous false else ended.2.take.previous false

/-! ## What remains -/

/-- How many tokens there are from the cursor on. -/
def remaining (d : Descent) : Nat := d.cursor.tokens.length - d.cursor.position

theorem remaining_advance_lt {d : Descent} (h : d.cursor.peek.isEnd = false) :
    d.advance.2.remaining < d.remaining := by
  have hlt : d.cursor.position < d.cursor.tokens.length := by
    apply Nat.lt_of_not_le
    intro hge
    have hlast : d.cursor.peek.isEnd = true := Sequence.isEnd_get (by omega)
    rw [h] at hlast
    cases hlast
  have hnot : ¬d.atEnd.1 = true := Bool.eq_false_iff.1 h
  rw [advance, if_neg hnot]
  show d.cursor.tokens.length - (d.cursor.position + 1) < d.cursor.tokens.length - d.cursor.position
  omega

theorem cursor_check (kind : Kind) (d : Descent) : (d.check kind).2.cursor = d.cursor := by
  rw [check]
  split <;> rfl

theorem remaining_check (kind : Kind) (d : Descent) : (d.check kind).2.remaining = d.remaining := by
  rw [remaining, cursor_check, remaining]

/-- An end of the input passes no check. -/
theorem remaining_advance_check_lt {kind : Kind} {d : Descent} (h : (d.check kind).1 = true) :
    (d.check kind).2.advance.2.remaining < d.remaining := by
  have hend : d.cursor.peek.isEnd = false := by
    rw [check] at h
    split at h
    · cases h
    · rename_i hnot
      exact Bool.eq_false_iff.2 hnot
  rw [← remaining_check kind d]
  exact remaining_advance_lt (by rw [cursor_check, hend])

/-- What a function gives at a descent, and the descent further on. -/
structure Answer (α : Type) (d : Descent) where
  answer : α
  after : Descent
  remaining_le : after.remaining ≤ d.remaining

/-- What comes of the wish to take a token. -/
inductive Taken (d : Descent) where
  | took (after : Descent) (remaining_lt : after.remaining < d.remaining)
  | stayed (after : Descent) (remaining_le : after.remaining ≤ d.remaining)

section Back

variable {α : Type} {d d' : Descent}

/-- An answer further on is an answer. -/
def Answer.back (a : Answer α d') (h : d'.remaining ≤ d.remaining) : Answer α d :=
  ⟨a.answer, a.after, Nat.le_trans a.remaining_le h⟩

def Taken.back (a : Taken d') (h : d'.remaining ≤ d.remaining) : Taken d :=
  match a with
  | .took after lt => .took after (Nat.lt_of_lt_of_le lt h)
  | .stayed after le => .stayed after (Nat.le_trans le h)

/-- Goes on behind an expression; a refusal is the answer. -/
def Answer.andThen (a : Answer (Except Rejection Expr) d)
    (next : Expr → (d' : Descent) → d'.remaining ≤ d.remaining → Answer (Except Rejection Expr) d') :
    Answer (Except Rejection Expr) d :=
  match a with
  | ⟨.ok e, after, h⟩ => (next e after h).back h
  | ⟨.error rejection, after, h⟩ => ⟨.error rejection, after, h⟩

end Back

/-- Takes the token at the cursor if it has one of some kinds. -/
def takeAny : List Kind → (d : Descent) → Taken d
  | [], d => .stayed d (Nat.le_refl _)
  | kind :: kinds, d =>
    if h : (d.check kind).1 = true then .took (d.check kind).2.advance.2 (remaining_advance_check_lt h)
    else ((d.check kind).2.takeAny kinds).back (Nat.le_of_eq (remaining_check kind d))

/-- Refuses the token at the cursor. -/
def refuse {α : Type} (cause : Cause) (d : Descent) : Answer (Except Rejection α) d :=
  ⟨.error (.ofCause cause d.peek.1), d.peek.2, Nat.le_refl _⟩

/-- Takes a token of a kind, or refuses the token at the cursor. -/
def consume (kind : Kind) (cause : Cause) (d : Descent) : Answer (Except Rejection Token) d :=
  if h : (d.check kind).1 = true then
    ⟨.ok (d.check kind).2.advance.1, (d.check kind).2.advance.2, Nat.le_of_lt (remaining_advance_check_lt h)⟩
  else ((d.check kind).2.refuse cause).back (Nat.le_of_eq (remaining_check kind d))

/-! ## The rules -/

/-- Takes the token at the cursor if its kind alone tells a value, and gives that value. -/
def takeConstant : List (Kind × Value) → (d : Descent) → Answer (Option Value) d
  | [], d => ⟨none, d, Nat.le_refl _⟩
  | (kind, value) :: constants, d =>
    match d.takeAny [kind] with
    | .took after lt => ⟨some value, after, Nat.le_of_lt lt⟩
    | .stayed after le => (after.takeConstant constants).back le

/-- The values that are told by a kind alone. -/
def constants : List (Kind × Value) :=
  [(.keyword .falseWord, .bool false), (.keyword .trueWord, .bool true), (.keyword .nilWord, .nil)]

/-- Takes a literal, if one stands at the cursor, and gives its value. -/
def takeLiteral (d : Descent) : Answer (Option Value) d :=
  match d.takeConstant constants with
  | ⟨some value, after, le⟩ => ⟨some value, after, le⟩
  | ⟨none, after, le⟩ =>
    match after.takeAny [.number, .string] with
    | .took after' lt =>
      ⟨some (after'.previous true).1.literal, (after'.previous true).2, Nat.le_trans (Nat.le_of_lt lt) le⟩
    | .stayed after' le' => ⟨none, after', Nat.le_trans le' le⟩

/-- Takes the parenthesis that closes a group. -/
def closeGroup (inner : Expr) (d : Descent) : Answer (Except Rejection Expr) d :=
  match d.consume .rightParen .expectedParenthesis with
  | ⟨.ok _, after, le⟩ => ⟨.ok (.grouping inner), after, le⟩
  | ⟨.error rejection, after, le⟩ => ⟨.error rejection, after, le⟩

mutual

/-- The rule of a level, from equality to the unary expressions. -/
def rule (level : Level) (d : Descent) : Answer (Except Rejection Expr) d :=
  if _ : level.rank < Level.unary.rank then
    (rule level.next d).andThen fun left after _ => chain level left after
  else unary d
termination_by (d.remaining, 3 + (Level.unary.rank - level.rank))
decreasing_by
  · have hnext := Level.rank_next ‹level.rank < Level.unary.rank›
    omega
  · omega
  · omega

/-- The operators of a level and the operands behind them, to the right of an operand. -/
def chain (level : Level) (left : Expr) (d : Descent) : Answer (Except Rejection Expr) d :=
  match d.takeAny level.operators with
  | .took after lt =>
    ((rule level.next (after.previous true).2).andThen fun right after' _ =>
      chain level (.binary left (after.previous true).1 right) after').back (Nat.le_of_lt lt)
  | .stayed after le => ⟨.ok left, after, le⟩
termination_by (d.remaining, 2)
decreasing_by
  · exact Prod.Lex.left _ _ lt
  · exact Prod.Lex.left _ _ (Nat.lt_of_le_of_lt ‹after'.remaining ≤ _› lt)

/-- A sign and a unary expression, or a primary one. -/
def unary (d : Descent) : Answer (Except Rejection Expr) d :=
  match d.takeAny [.bang, .minus] with
  | .took after lt =>
    ((unary (after.previous true).2).andThen fun operand after' _ =>
      ⟨.ok (.unary (after.previous true).1 operand), after', Nat.le_refl _⟩).back (Nat.le_of_lt lt)
  | .stayed after le => (primary after).back le
termination_by (d.remaining, 1)
decreasing_by
  · exact Prod.Lex.left _ _ lt
  · omega

/-- A literal, or an expression in parentheses. -/
def primary (d : Descent) : Answer (Except Rejection Expr) d :=
  match d.takeLiteral with
  | ⟨some value, after, le⟩ => ⟨.ok (.literal value), after, le⟩
  | ⟨none, after, le⟩ =>
    match after.takeAny [.leftParen] with
    | .took after' lt =>
      ((rule .equality after').andThen fun inner after'' _ => after''.closeGroup inner).back
        (Nat.le_trans (Nat.le_of_lt lt) le)
    | .stayed after' le' => (after'.refuse .expectedExpression).back (Nat.le_trans le' le)
termination_by (d.remaining, 0)

end

/-- Reads an expression from the cursor on, or refuses the first token that does not belong to one. -/
def parse (d : Descent) : Answer (Except Rejection Expr) d := rule .equality d

/-! ## Synchronization -/

/-- Takes tokens up to the next place where a statement may begin. -/
def settle (d : Descent) : Descent :=
  if _ : d.atEnd.1 = true then d.atEnd.2
  else
    let before := d.atEnd.2.previous true
    if before.1.kind ∈ Kind.statementEnds then before.2
    else
      let next := before.2.peek
      if next.1.kind ∈ Kind.statementStarts then next.2
      else settle next.2.advance.2
termination_by d.remaining
decreasing_by exact remaining_advance_lt (Bool.eq_false_iff.2 ‹¬d.atEnd.1 = true›)

/-- Leaves the token at the cursor behind, unless it is an end of the input, and moves on to the next place
where a statement may begin. -/
def synchronize (d : Descent) : Descent := settle d.advance.2

end Descent

/-! ## Requests -/

/-- What a parser is asked for. -/
inductive Request where
  | parse
  | synchronize
  deriving DecidableEq

/-- Serves requests in order, and gives the answers to those that have one. -/
def Descent.serveAll : List Request → Descent → List (Except Rejection Expr) × Descent
  | [], d => ([], d)
  | .parse :: requests, d =>
    let (answers, after) := d.parse.after.serveAll requests
    (d.parse.answer :: answers, after)
  | .synchronize :: requests, d => d.synchronize.serveAll requests

/-- Serves requests in order, and gives the answers to those that have one. -/
def Cursor.serveAll (limit : Option Nat) : List Request → Cursor → List (Except Rejection Expr) × Cursor
  | [], c => ([], c)
  | .parse :: requests, c =>
    let (answer, c) := c.parse limit
    let (answers, c) := c.serveAll limit requests
    (answer :: answers, c)
  | .synchronize :: requests, c => c.synchronize.serveAll limit requests

end LoxSyntax
