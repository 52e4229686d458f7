/-
# LoxSyntax.Parse.Level -- how tightly operators bind

There are six levels, from equality, which binds least, to the primary expressions, which need no
binding. The binary operators stand on the four lower ones.
-/
import LoxSyntax.Token.Basic

namespace LoxSyntax

/-- A level of binding. -/
inductive Level where
  | equality
  | comparison
  | term
  | factor
  | unary
  | primary
  deriving DecidableEq

namespace Level

/-- The levels in order, the loosest first. -/
def rank : Level → Nat
  | equality => 0
  | comparison => 1
  | term => 2
  | factor => 3
  | unary => 4
  | primary => 5

/-- The next tighter level; there is none behind the primary expressions. -/
def next : Level → Level
  | equality => comparison
  | comparison => term
  | term => factor
  | factor => unary
  | unary | primary => primary

theorem rank_injective {a b : Level} (h : a.rank = b.rank) : a = b := by
  cases a <;> cases b <;> simp_all [rank]

theorem rank_next {a b : Level} (h : a.rank < b.rank) : a.next.rank = a.rank + 1 := by
  cases a <;> cases b <;> simp_all [rank, next]

end Level

namespace Kind

/-- The level of a kind as a binary operator. -/
def level? : Kind → Option Level
  | bangEqual | equalEqual => some .equality
  | greater | greaterEqual | less | lessEqual => some .comparison
  | minus | plus => some .term
  | slash | star => some .factor
  | _ => none

/-- The binary operators as they are written. -/
def binaryOperators : List (String × Kind) :=
  [("!=", bangEqual), ("==", equalEqual), (">", greater), (">=", greaterEqual), ("<", less),
    ("<=", lessEqual), ("-", minus), ("+", plus), ("/", slash), ("*", star)]

/-- The unary operators as they are written. -/
def unaryOperators : List (String × Kind) := [("!", bang), ("-", minus)]

/-- Whether a kind is a unary operator. -/
def isUnary : Kind → Bool
  | bang | minus => true
  | _ => false

theorem level?_rank_lt {kind : Kind} {level : Level} (h : kind.level? = some level) :
    level.rank < Level.unary.rank := by
  cases kind <;> simp [level?] at h <;> subst h <;> decide

theorem level?_isSome_iff (kind : Kind) :
    kind.level?.isSome = true ↔ kind ∈ binaryOperators.map Prod.snd := by
  cases kind <;> simp [level?, binaryOperators]

theorem isUnary_iff (kind : Kind) : kind.isUnary = true ↔ kind ∈ unaryOperators.map Prod.snd := by
  cases kind <;> simp [isUnary, unaryOperators]

end Kind

/-- The value that a token denotes as an operand, if it is one. A truth value and nil are told by the
kind of the token; a number or a text is the literal of the token. -/
def Token.operand? (t : Token) : Option Value :=
  match t.kind with
  | .keyword .falseWord => some (.bool false)
  | .keyword .trueWord => some (.bool true)
  | .keyword .nilWord => some .nil
  | .number | .string => some t.literal
  | _ => none

end LoxSyntax
