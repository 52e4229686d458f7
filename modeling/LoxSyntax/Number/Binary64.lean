/-
# LoxSyntax.Number.Binary64 -- double-precision numbers: their values, their bits, and rounding to them

A finite magnitude is held as its CODE, the exponent field and the fraction field read as one number.
The order of the codes is the order of the magnitudes, so neighbours differ by one, and a carry out of
the fraction is a carry into the exponent: rounding up never needs a second look.

Every magnitude is a whole number of UNITS, where a unit is `2 ^ (-1074)`, the least magnitude above
zero. `units` gives that number, and `nearestCode` goes the other way for a quotient of two naturals: it
gives the code of the nearest magnitude, a half going to the even code. All of it is exact arithmetic on
naturals; no machine float is involved.

There is one not-a-number: nothing in the library can tell two of them apart.
-/
namespace LoxSyntax.Number

-- powers, and the types of their exponents, are the same whatever else is imported
attribute [local instance (high)] instPowNat

/-! ## Magnitudes and their codes -/

/-- The first code that is no finite magnitude. As a code it stands for infinity. -/
def topCode : Nat := 0x7ff * 2 ^ (52 : Nat)

/-- The magnitude with the given code, counted in units of `2 ^ (-1074)`. Below `2 ^ 53` the spacing is
one unit; from there it doubles each time the exponent field grows. -/
def units (code : Nat) : Nat :=
  if code < 2 ^ (53 : Nat) then code
  else (2 ^ (52 : Nat) + code % 2 ^ (52 : Nat)) * 2 ^ (code / 2 ^ (52 : Nat) - 1)

/-- A quotient rounded to the nearest whole number, a half going to the even one. -/
def roundHalfEven (numerator denominator : Nat) : Nat :=
  let floor := numerator / denominator
  let twice := 2 * (numerator % denominator)
  if twice < denominator then floor
  else if denominator < twice then floor + 1
  else floor + floor % 2

/-- The code of the magnitude nearest to a quotient, a half going to the even code. The quotient in
units keeps its 53 leading bits, and the bits that are dropped are counted by the exponent field. A
result from `topCode` on means that the quotient is too large. -/
def nearestCode (numerator denominator : Nat) : Nat :=
  let scaled := numerator * 2 ^ (1074 : Nat)
  let dropped := (scaled / denominator).log2 - 52
  dropped * 2 ^ (52 : Nat) + roundHalfEven scaled (denominator * 2 ^ dropped)

theorem units_of_lt {code : Nat} (h : code < 2 ^ (53 : Nat)) : units code = code := by
  rw [units, if_pos h]

theorem roundHalfEven_one (n : Nat) : roundHalfEven n 1 = n := by
  simp [roundHalfEven, Nat.mod_one]

/-! ## Doubles -/

/-- A double: the not-a-number, an infinity of either sign, or a finite magnitude of either sign. -/
inductive Double where
  | nan
  | infinite (negative : Bool)
  | finite (negative : Bool) (magnitude : Fin topCode)
  deriving DecidableEq

namespace Double

/-- The double with a sign and a code; a code past the finite ones is an infinity. -/
def ofCode (negative : Bool) (code : Nat) : Double :=
  if h : code < topCode then .finite negative ⟨code, h⟩ else .infinite negative

/-- The double nearest to a quotient of two naturals, a half going to the even code. -/
def ofRatio (numerator denominator : Nat) : Double :=
  ofCode false (nearestCode numerator denominator)

def zero : Double := ofCode false 0

def one : Double := ofCode false (0x3ff * 2 ^ (52 : Nat))

/-- Equality of the values: the two zeros are equal, and the not-a-number differs from itself. -/
def sameValue : Double → Double → Bool
  | .infinite s, .infinite t => s == t
  | .finite s m, .finite t n => m == n && (s == t || m.val == 0)
  | _, _ => false

/-- Reads sixty-four bits: the sign, eleven bits of exponent and fifty-two of fraction. -/
def ofBits (bits : UInt64) : Double :=
  let code := bits.toNat % 2 ^ (63 : Nat)
  if topCode < code then .nan else ofCode (decide (2 ^ (63 : Nat) ≤ bits.toNat)) code

/-- Writes sixty-four bits. The not-a-number is the quiet one with no other bit set. -/
def toBits : Double → UInt64
  | .nan => 0x7ff8000000000000
  | .infinite negative => UInt64.ofNat (signBit negative + topCode)
  | .finite negative magnitude => UInt64.ofNat (signBit negative + magnitude.val)
where
  signBit (negative : Bool) : Nat := if negative then 2 ^ (63 : Nat) else 0

theorem ofCode_of_lt (negative : Bool) {code : Nat} (h : code < topCode) :
    ofCode negative code = .finite negative ⟨code, h⟩ := by
  simp [ofCode, h]

theorem ofCode_of_le (negative : Bool) {code : Nat} (h : topCode ≤ code) :
    ofCode negative code = .infinite negative := by
  simp [ofCode, Nat.not_lt.2 h]

/-- A quotient of naturals is never read as the not-a-number. -/
theorem ofRatio_ne_nan (numerator denominator : Nat) : ofRatio numerator denominator ≠ .nan := by
  unfold ofRatio ofCode
  split <;> simp

theorem sameValue_nan (x : Double) : sameValue .nan x = false := by
  cases x <;> rfl

end Double

end LoxSyntax.Number
