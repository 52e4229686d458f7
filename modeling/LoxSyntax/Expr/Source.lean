/-
# LoxSyntax.Expr.Source -- a tree written as a source

`source` writes a tree the way an expression is written: operators between their operands, parentheses
for groupings and nowhere else, texts in double quotes, and a space between any two lexemes. The tree of
the source is the tree that was written, if the tree is canonical and its values can be written at all:
`IsWritten` says which can.
-/
import LoxSyntax.Expr.Basic
import LoxSyntax.Parse.Level

namespace LoxSyntax

open Number (Double)

-- powers, and the types of their exponents, are the same whatever else is imported
attribute [local instance (high)] instPowNat

/-- The text of a literal with a value. -/
def Value.lexeme : Value → String
  | .text s => String.ofList (Text.doubleQuote :: s.toList ++ [Text.doubleQuote])
  | value => value.display

/-- The double is zero, without a sign, or lies between a millionth and `10 ^ 21`: the numbers that are
displayed as numerals. -/
def Number.Double.IsNumeral : Double → Prop
  | .finite false magnitude =>
    magnitude.val = 0 ∨
      (nearestCode 1 (10 ^ (6 : Nat)) ≤ magnitude.val ∧ magnitude.val < nearestCode (10 ^ (21 : Nat)) 1)
  | _ => False

/-- The value has a literal. -/
def Value.IsWritten : Value → Prop
  | .nil | .bool _ => True
  | .number x => x.IsNumeral
  | .text s => Text.doubleQuote ∉ s.toList

namespace Expr

/-- The lexemes that a tree is written with. -/
def lexemes : Expr → List String
  | literal value => [value.lexeme]
  | grouping inner => "(" :: inner.lexemes ++ [")"]
  | unary operator operand => operator.lexeme :: operand.lexemes
  | binary left operator right => left.lexemes ++ operator.lexeme :: right.lexemes

/-- A tree as a source. -/
def source (e : Expr) : String := " ".intercalate e.lexemes

/-- Every operator is a token that could have been read: its kind is that of its lexeme, and it has no
value. -/
def OperatorsSpelled (e : Expr) : Prop :=
  (∀ t ∈ e.operators .binary, (t.lexeme, t.kind) ∈ Kind.binaryOperators ∧ t.literal = .nil) ∧
    ∀ t ∈ e.operators .unary, (t.lexeme, t.kind) ∈ Kind.unaryOperators ∧ t.literal = .nil

/-- A tree with all its operators moved to one line. -/
def unplaced : Expr → Expr := mapOperators fun t => { t with line := 0 }

/-- A tree of which only the lexemes of the operators are kept. -/
def unsorted : Expr → Expr := mapOperators fun t => ⟨.identifier, t.lexeme, .nil, 0⟩

end Expr

end LoxSyntax
