/-
# LoxSyntax.Number.Layout -- how the digits of a double are laid out as text

Which digits a number has is settled by `Decimal.shortest`; a `Layout` settles the rest: how far the
point may move before an exponent is written, whether a whole number keeps a point, how wide an
exponent is, whether zero shows its sign, and what the values without digits are called.

`Layout.display` is how the language prints a number, `Layout.literal` is how a number stands in the
debugging form of a token.
-/
import LoxSyntax.Number.Decimal

namespace LoxSyntax.Number

/-- The choices of a written form for doubles. -/
structure Layout where
  /-- The least position of the point that is written without an exponent. -/
  leastPoint : Int
  /-- The greatest position of the point that is written without an exponent. -/
  greatestPoint : Int
  /-- What follows a whole number that is written without an exponent. -/
  wholeEnding : String
  /-- The least number of digits in an exponent. -/
  exponentWidth : Nat
  /-- Whether a negative zero shows its sign. -/
  signedZero : Bool
  nan : String
  infinity : String

namespace Layout

/-- Numbers as the language prints them: whole numbers without a point, exponents only below a millionth
and from `10 ^ 21` on. -/
def display : Layout :=
  ⟨-5, 21, "", 1, false, "NaN", "Infinity"⟩

/-- Numbers in the debugging form: a whole number keeps its point, and exponents of two digits come in
below a ten-thousandth and from `10 ^ 16` on. -/
def literal : Layout :=
  ⟨-3, 16, ".0", 2, true, "nan", "inf"⟩

/-- Digits with their point at a given position, filled up with zeros on either side. -/
def positional (layout : Layout) (digits : List Char) (point : Int) : String :=
  if point ≤ 0 then "0." ++ String.ofList (List.replicate (-point).toNat '0' ++ digits)
  else if digits.length ≤ point.toNat then
    String.ofList (digits ++ List.replicate (point.toNat - digits.length) '0') ++ layout.wholeEnding
  else
    String.ofList (digits.take point.toNat) ++ "." ++ String.ofList (digits.drop point.toNat)

/-- Digits with the point after the first one, and the power of ten that this leaves. -/
def scientific (layout : Layout) (digits : List Char) (point : Int) : String :=
  let power := (Nat.toDigits 10 (point - 1).natAbs)
  let fraction := if digits.length ≤ 1 then [] else '.' :: digits.drop 1
  String.ofList (digits.take 1 ++ fraction ++ 'e' :: (if point < 1 then '-' else '+') ::
    List.replicate (layout.exponentWidth - power.length) '0' ++ power)

/-- A decimal with no zeros at its end, with or without an exponent as the layout asks. -/
def writeDecimal (layout : Layout) (d : Decimal) : String :=
  if layout.leastPoint ≤ d.point ∧ d.point ≤ layout.greatestPoint then
    layout.positional d.digits d.point
  else layout.scientific d.digits d.point

/-- The sign of a number as it is written. -/
def sign (negative : Bool) : String := if negative then "-" else ""

/-- The text of a double. -/
def write (layout : Layout) : Double → String
  | .nan => layout.nan
  | .infinite negative => sign negative ++ layout.infinity
  | .finite negative magnitude =>
    if magnitude.val = 0 then
      sign (negative && layout.signedZero) ++ layout.writeDecimal ⟨0, 0⟩
    else sign negative ++ layout.writeDecimal (Decimal.shortest magnitude.val).trim

end Layout

end LoxSyntax.Number
