/-
# LoxSyntax.Number.Nearest -- what it is to be nearest, and to be shortest

The two relations say of a code and of a decimal what `nearestCode` and `Decimal.shortest` are to
compute, without saying how.

A quotient ROUNDS to a code if no magnitude is nearer to it, and an even code is taken where two are
equally near. The codes go on past the finite ones as if the exponents did, so a quotient that is too
large rounds to `topCode` or beyond, and it does so from halfway between the greatest magnitude and the
next one on.
-/
import LoxSyntax.Number.Decimal

namespace LoxSyntax.Number

-- powers, and the types of their exponents, are the same whatever else is imported
attribute [local instance (high)] instPowNat

/-! ## Nearness -/

/-- How far a magnitude is from a quotient, counted in units and multiplied by the denominator. -/
def distance (numerator denominator code : Nat) : Nat :=
  max (units code * denominator) (numerator * 2 ^ (1074 : Nat)) -
    min (units code * denominator) (numerator * 2 ^ (1074 : Nat))

/-- The code is nearest to the quotient, and even if another is as near. -/
structure RoundsTo (numerator denominator code : Nat) : Prop where
  nearest : ∀ other, distance numerator denominator code ≤ distance numerator denominator other
  even : ∀ other, distance numerator denominator other = distance numerator denominator code →
    other = code ∨ code % 2 = 0

theorem distance_self (code : Nat) : distance (units code) (2 ^ (1074 : Nat)) code = 0 := by
  simp only [distance, Nat.max_self, Nat.min_self, Nat.sub_self]

/-! ## Shortness -/

namespace Decimal

/-- The decimal rounds to the magnitude. -/
def ReadsBack (magnitude : Nat) (d : Decimal) : Prop := RoundsTo d.numerator d.denominator magnitude

/-- One decimal is at least as near to a magnitude as another. -/
def AsNear (magnitude : Nat) (d other : Decimal) : Prop :=
  distance d.numerator d.denominator magnitude * other.denominator ≤
    distance other.numerator other.denominator magnitude * d.denominator

/-- The decimal reads back as the magnitude, has no zero at its end, and no decimal that reads back has
fewer digits or is nearer with as many. -/
structure IsShortest (magnitude : Nat) (d : Decimal) : Prop where
  readsBack : d.ReadsBack magnitude
  trimmed : d.coefficient % 10 ≠ 0
  shortest : ∀ other : Decimal, other.ReadsBack magnitude → digitCount d.coefficient ≤ digitCount other.coefficient
  nearest : ∀ other : Decimal, other.ReadsBack magnitude →
    digitCount other.coefficient = digitCount d.coefficient → AsNear magnitude d other

end Decimal

end LoxSyntax.Number
