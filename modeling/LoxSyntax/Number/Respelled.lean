/-
# LoxSyntax.Number.Respelled -- the display of a number, made from its debugging form

The language prints a number in one layout. The same text can be had without asking for digits: a whole
number below `10 ^ 16` is written out as the integer that it is, and any other number is RESPELLED from its
debugging form. That form is kept if it has no exponent; an exponent that is not great enough for the display
is taken away by moving the point; any other is written again without zeros in front.

Four branches make the text, and they must fit together: at `10 ^ 16`, where integers end, at a
ten-thousandth, where the debugging form turns to exponents, and at `10 ^ 21` and a millionth, where the
display does.
-/
import LoxSyntax.Number.Layout

namespace LoxSyntax.Number

-- powers, and the types of their exponents, are the same whatever else is imported
attribute [local instance (high)] instPowNat

/-- The integer that digits with a sign denote; the sign may be left out. -/
def signedValue : List Char → Int
  | '-' :: digits => -(digitsValue digits : Int)
  | '+' :: digits => digitsValue digits
  | digits => digitsValue digits

/-- An integer with its sign, whichever it is. -/
def withSign (n : Int) : List Char := (if n < 0 then '-' else '+') :: Nat.toDigits 10 n.natAbs

/-- A mantissa without its exponent, the point being moved by as many places. -/
def movePoint (mantissa : List Char) (exponent : Int) : List Char :=
  let sign := if mantissa.head? = some '-' then ['-'] else []
  let digits := (mantissa.dropWhile (· = '-')).filter (· ≠ '.')
  if exponent < 0 then
    sign ++ '0' :: '.' :: List.replicate (-exponent - 1).toNat '0' ++ digits
  else sign ++ digits ++ List.replicate (exponent + 1 - digits.length).toNat '0'

/-- The debugging form of a number, spelled as the language prints the number. -/
def respell (text : List Char) : List Char :=
  if 'e' ∉ text then text
  else
    let mantissa := text.takeWhile (· ≠ 'e')
    let exponent := signedValue ((text.dropWhile (· ≠ 'e')).drop 1)
    if -7 < exponent ∧ exponent < 21 then movePoint mantissa exponent
    else mantissa ++ 'e' :: withSign exponent

/-- A magnitude is a whole number below `10 ^ 16`. -/
def IsSmallWhole (magnitude : Nat) : Prop :=
  units magnitude % 2 ^ (1074 : Nat) = 0 ∧ units magnitude / 2 ^ (1074 : Nat) < 10 ^ (16 : Nat)

instance (magnitude : Nat) : Decidable (IsSmallWhole magnitude) := instDecidableAnd

/-- The text of a double, made from the integer that it is or from its debugging form. -/
def respelled : Double → String
  | .nan => "NaN"
  | .infinite negative => if negative then "-Infinity" else "Infinity"
  | .finite negative magnitude =>
    if IsSmallWhole magnitude.val then
      let whole := units magnitude.val / 2 ^ (1074 : Nat)
      toString (if negative then -(whole : Int) else (whole : Int))
    else String.ofList (respell (Layout.literal.write (.finite negative magnitude)).toList)

end LoxSyntax.Number
