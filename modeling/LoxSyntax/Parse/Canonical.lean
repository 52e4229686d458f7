/-
# LoxSyntax.Parse.Canonical -- the trees that are parsed, and the tokens they stand for

A tree is CANONICAL if every operator has operands that bind tightly enough to be read back without
parentheses: a binary operator a left operand of its own level at least and a right one that is tighter,
a unary operator an operand that is unary or primary. `Yields` relates a tree to the tokens it is written
with, in order; only the token of a literal is not settled by the tree.
-/
import LoxSyntax.Expr.Basic
import LoxSyntax.Parse.Level

namespace LoxSyntax

namespace Expr

/-- The level that a tree binds at, by its root. A binary operator that is none has the loosest one. -/
def level : Expr → Level
  | literal _ | grouping _ => .primary
  | unary _ _ => .unary
  | binary _ operator _ => operator.kind.level?.getD .equality

theorem level_binary {left right : Expr} {operator : Token} {level : Level}
    (h : operator.kind.level? = some level) : (binary left operator right).level = level := by
  simp [Expr.level, h]

/-- Every operator has operands that bind tightly enough. -/
def Canonical : Expr → Prop
  | literal _ => True
  | grouping inner => inner.Canonical
  | unary operator operand =>
    operator.kind.isUnary = true ∧ Level.unary.rank ≤ operand.level.rank ∧ operand.Canonical
  | binary left operator right =>
    (∃ level, operator.kind.level? = some level ∧
      level.rank ≤ left.level.rank ∧ level.rank < right.level.rank) ∧
      left.Canonical ∧ right.Canonical

/-- A tree is written with a list of tokens. -/
inductive Yields : Expr → List Token → Prop where
  | literal {value : Value} {t : Token} : t.operand? = some value → Yields (.literal value) [t]
  | grouping {inner : Expr} {open' close : Token} {tokens : List Token} :
      open'.kind = .leftParen → Yields inner tokens → close.kind = .rightParen →
      Yields (.grouping inner) (open' :: tokens ++ [close])
  | unary {operator : Token} {operand : Expr} {tokens : List Token} :
      Yields operand tokens → Yields (.unary operator operand) (operator :: tokens)
  | binary {left right : Expr} {operator : Token} {before after : List Token} :
      Yields left before → Yields right after →
      Yields (.binary left operator right) (before ++ operator :: after)

/-- What the groupings and unary operators around a literal count against the bound on nesting, where
they count most. -/
def nesting : Expr → Nat
  | literal _ => 0
  | grouping inner => inner.nesting + 11
  | unary _ operand => operand.nesting + 1
  | binary left _ right => max left.nesting right.nesting

end Expr

end LoxSyntax
