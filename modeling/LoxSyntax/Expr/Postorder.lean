/-
# LoxSyntax.Expr.Postorder -- a reader of reverse Polish notation

The reader goes through the words of a text with a stack of trees. The word of a binary operator takes
two trees off the stack and puts their application on it; any other word is an operand, a literal with
unary operators in front of it.
-/
import LoxSyntax.Expr.Source

namespace LoxSyntax

open Number (Decimal Double)

/-- Reads a value as it is displayed. Texts are left out: they are displayed as they are. -/
def Value.ofDisplay? (text : List Char) : Option Value :=
  if text = "nil".toList then some .nil
  else if text = "true".toList then some (.bool true)
  else if text = "false".toList then some (.bool false)
  else if text = "Infinity".toList then some (.number (.infinite false))
  else (Decimal.ofText? text).map fun d => .number d.toDouble

namespace Expr

/-- An operator token as a reader makes it: without a value, and on no line. -/
def operatorToken (kind : Kind) (lexeme : String) : Token := ⟨kind, lexeme, .nil, 0⟩

/-- Reads a literal with unary operators in front of it. -/
def operand? : List Char → Option Expr
  | [] => none
  | c :: rest =>
    match Kind.unaryOperators.lookup (String.singleton c) with
    | some kind => (operand? rest).map (.unary (operatorToken kind (String.singleton c)))
    | none => (Value.ofDisplay? (c :: rest)).map .literal

/-- Reads words with a stack of trees; `none` if an operator finds too few trees, or a word is no
operand. -/
def readWords : List (List Char) → List Expr → Option (List Expr)
  | [], stack => some stack
  | word :: rest, stack =>
    match Kind.binaryOperators.lookup (String.ofList word), stack with
    | some kind, right :: left :: below =>
      readWords rest (.binary left (operatorToken kind (String.ofList word)) right :: below)
    | some _, _ => none
    | none, _ =>
      match operand? word with
      | some e => readWords rest (e :: stack)
      | none => none

/-- The words of a text, between spaces. -/
def words : List Char → List (List Char)
  | [] => [[]]
  | c :: rest =>
    if c = ' ' then [] :: words rest
    else match words rest with
      | word :: more => (c :: word) :: more
      | [] => [[c]]

/-- The trees that a text in reverse Polish notation leaves on the stack, the last one first. -/
def readReversePolish (text : String) : Option (List Expr) := readWords (words text.toList) []

end Expr

end LoxSyntax
