/-
# LoxSyntax.Number.Decimal -- decimal numbers: read exactly, and chosen as the shortest text of a double

A `Decimal` is a whole coefficient times a power of ten. `ofNumeral` reads the digits on the two sides
of a point into one, `ofText?` reads every form in which a decimal is written, and `toDouble` rounds it
once.

`shortest` goes back from a magnitude to a decimal. For one digit, two digits and so on up to seventeen
it looks at the magnitude's neighbours on the grid of decimals with that many digits, the nearer one
first, and takes the first that READS BACK, that is, rounds to the magnitude it came from. Whether a
decimal reads back is asked of `nearestCode` itself. The exact decimal of the magnitude stands behind
the search, so there is always an answer.
-/
import LoxSyntax.Number.Binary64

namespace LoxSyntax.Number

-- powers, and the types of their exponents, are the same whatever else is imported
attribute [local instance (high)] instPowNat

def isDigit (c : Char) : Bool := decide ('0' ≤ c) && decide (c ≤ '9')

/-- The natural that a text of decimal digits denotes. -/
def digitsValue (digits : List Char) : Nat :=
  digits.foldl (fun value digit => 10 * value + (digit.toNat - 48)) 0

/-- How many decimal digits a natural has; zero has one. -/
def digitCount (n : Nat) : Nat :=
  if n < 10 then 1 else digitCount (n / 10) + 1
termination_by n
decreasing_by omega

theorem digitCount_eq_length_toDigits (n : Nat) : digitCount n = (Nat.toDigits 10 n).length := by
  fun_induction digitCount n with
  | case1 n h => rw [Nat.toDigits_eq_if (by decide), if_pos h]; rfl
  | case2 n h ih =>
    rw [ih, @Nat.toDigits_eq_if 10 n (by decide), if_neg h, List.length_append]
    rfl

/-- The number `coefficient * 10 ^ exponent`. -/
structure Decimal where
  coefficient : Nat
  exponent : Int
  deriving DecidableEq

namespace Decimal

def numerator (d : Decimal) : Nat := d.coefficient * 10 ^ d.exponent.toNat

def denominator (d : Decimal) : Nat := 10 ^ (-d.exponent).toNat

/-- The code of the magnitude nearest to a decimal. -/
def code (d : Decimal) : Nat := nearestCode d.numerator d.denominator

/-- The double nearest to a decimal. -/
def toDouble (d : Decimal) : Double := Double.ofRatio d.numerator d.denominator

/-- The decimal with the given digits before and after its point. -/
def ofNumeral (whole fraction : List Char) : Decimal :=
  ⟨digitsValue (whole ++ fraction), -(fraction.length : Int)⟩

/-- The same number without zeros at the end of its coefficient. -/
def trim (d : Decimal) : Decimal :=
  if 0 < d.coefficient ∧ d.coefficient % 10 = 0 then trim ⟨d.coefficient / 10, d.exponent + 1⟩ else d
termination_by d.coefficient
decreasing_by omega

/-- The significant digits, first to last. -/
def digits (d : Decimal) : List Char := Nat.toDigits 10 d.coefficient

/-- The position of the point relative to the first digit: with digits `d₁ … dₖ` and point `n` the
number is `0.d₁ … dₖ * 10 ^ n`. -/
def point (d : Decimal) : Int := d.exponent + d.digits.length

/-- Reads a text of digits, with a point between digits or without, and with a power of ten in it or
without. The power is introduced by an `e` and always has a sign. -/
def ofText? (text : List Char) : Option Decimal :=
  let whole := text.takeWhile isDigit
  let (fraction, rest) := match text.dropWhile isDigit with
    | '.' :: more => (more.takeWhile isDigit, more.dropWhile isDigit)
    | rest => ([], rest)
  let base := ofNumeral whole fraction
  match rest with
  | [] => if whole = [] then none else some base
  | 'e' :: sign :: power =>
    if whole = [] ∨ power = [] ∨ !power.all isDigit then none
    else if sign = '+' then some ⟨base.coefficient, base.exponent + digitsValue power⟩
    else if sign = '-' then some ⟨base.coefficient, base.exponent - digitsValue power⟩
    else none
  | _ => none

/-! ## The shortest decimal that reads back -/

/-- A magnitude written out in full: a unit is `5 ^ 1074 * 10 ^ (-1074)`. -/
def exact (code : Nat) : Decimal := ⟨units code * 5 ^ (1074 : Nat), -1074⟩

/-- The power of ten that the first digit of a magnitude counts. Every magnitude above zero is at least
`10 ^ (-324)`, so scaling by `10 ^ 324` loses no leading digit. -/
def leadingPower (code : Nat) : Int :=
  digitCount (units code * 10 ^ (324 : Nat) / 2 ^ (1074 : Nat)) - 325

/-- The neighbours of a magnitude among the decimals with the given exponent, the nearer one first. -/
def neighbours (code : Nat) (exponent : Int) : List Decimal :=
  let numerator := units code * 10 ^ (-exponent).toNat
  let denominator := 2 ^ (1074 : Nat) * 10 ^ exponent.toNat
  [roundHalfEven numerator denominator, numerator / denominator, numerator / denominator + 1].map
    (⟨·, exponent⟩)

/-- The nearest decimal of a given number of digits that reads back, if there is one. -/
def withDigits? (code count : Nat) : Option Decimal :=
  (neighbours code (leadingPower code + 1 - count)).find? (·.code == code)

/-- The shortest decimal that reads back as a magnitude, and of those the nearest to it. -/
def shortest (code : Nat) : Decimal :=
  ((List.range' 1 17).findSome? (withDigits? code)).getD (exact code)


/-- A decimal that `withDigits?` gives rounds to the magnitude it was made for. -/
theorem code_of_withDigits? {magnitude count : Nat} {d : Decimal} (h : withDigits? magnitude count = some d) :
    d.code = magnitude := by
  simpa using List.find?_some h

end Decimal

end LoxSyntax.Number
