/-
# LoxSyntax.Value -- the values that literals denote

A value is nil, a truth value, a number or a text. It has two written forms: `display` is what the
language prints, and `literal` is what stands in the debugging form of a token, where a text is quoted
and each kind of value is told from the others by its form alone.

Two values are the SAME when they compare equal as numbers, truth counting as one and falsehood as
zero, or are equal texts, or are both nil. So the relation is coarser than equality on the two zeros and
on truth values, and finer on the not-a-number, which is the same as nothing.
-/
import LoxSyntax.Number.Layout
import LoxSyntax.Text.Quoted

namespace LoxSyntax

open Number (Double Layout)

/-- What a literal denotes. -/
inductive Value where
  | nil
  | bool (value : Bool)
  | number (value : Double)
  | text (value : String)
  deriving DecidableEq

namespace Value

/-- A value as the language prints it. A text is printed without quotes. -/
def display : Value → String
  | .nil => "nil"
  | .bool true => "true"
  | .bool false => "false"
  | .number x => Layout.display.write x
  | .text s => s

/-- A value in the debugging form of a token. -/
def literal : Value → String
  | .nil => "None"
  | .bool true => "True"
  | .bool false => "False"
  | .number x => Layout.literal.write x
  | .text s => Text.quoted s

/-- The number that a value counts as in a comparison. -/
def number? : Value → Option Double
  | .bool true => some .one
  | .bool false => some .zero
  | .number x => some x
  | .nil => none
  | .text _ => none

/-- Whether two values compare equal. -/
def same : Value → Value → Bool
  | .nil, .nil => true
  | .text s, .text t => s == t
  | v, w =>
    match v.number?, w.number? with
    | some x, some y => x.sameValue y
    | _, _ => false

theorem same_nil_iff (v : Value) : same .nil v = true ↔ v = .nil := by
  cases v <;> simp [same, number?]

end Value

end LoxSyntax
