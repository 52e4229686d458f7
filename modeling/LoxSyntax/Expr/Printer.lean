/-
# LoxSyntax.Expr.Printer -- two written forms of expression trees

`parenthesized` puts every application in parentheses of its own, the operator first, so the shape of a
tree can be told from its print: `1 + 2 * 3` is printed as `(+ 1 (* 2 3))`.

`reversePolish` puts the operands first and needs no parentheses, so a grouping leaves no trace. A unary
operator is put right before its operand instead: a literal with a sign is one word, but the sign of a
longer operand falls to its first word.
-/
import LoxSyntax.Expr.Basic

namespace LoxSyntax.Expr

/-- A tree with every application in parentheses, the operator first. -/
def parenthesized : Expr → String
  | literal value => value.display
  | grouping inner => "(group " ++ inner.parenthesized ++ ")"
  | unary operator operand => "(" ++ operator.lexeme ++ " " ++ operand.parenthesized ++ ")"
  | binary left operator right =>
    "(" ++ operator.lexeme ++ " " ++ left.parenthesized ++ " " ++ right.parenthesized ++ ")"

/-- A tree with the operands of each binary operator before it. -/
def reversePolish : Expr → String
  | literal value => value.display
  | grouping inner => inner.reversePolish
  | unary operator operand => operator.lexeme ++ operand.reversePolish
  | binary left operator right =>
    left.reversePolish ++ " " ++ right.reversePolish ++ " " ++ operator.lexeme

end LoxSyntax.Expr
