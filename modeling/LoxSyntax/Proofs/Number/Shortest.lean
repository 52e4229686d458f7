/-
# LoxSyntax.Proofs.Number.Shortest -- the decimal of a magnitude reads back

The code of a decimal is settled by its value: zeros may be moved between the coefficient and the power of
ten (`code_shift`), so trimming a decimal keeps its code. Whichever decimal the search for the shortest one
comes to, it reads back as the magnitude it was found for (`code_shortest`).

The point of a decimal bounds its value by powers of ten from both sides, and so its code by those of the
powers. That tells from the point whether a magnitude lies between a millionth and `10 ^ 21`
(`point_shortest_iff`). The two ends are special cases: that the shortest decimals of the magnitudes there
are the powers of ten themselves takes running the search.
-/
import LoxSyntax.Proofs.Number.Rounding
import LoxSyntax.Number.Decimal

namespace LoxSyntax.Number.Decimal

-- powers, and the types of their exponents, are the same whatever else is imported
attribute [local instance (high)] instPowNat

variable {d : Decimal} {magnitude : Nat}

/-! ## Codes of decimals -/

theorem denominator_pos (d : Decimal) : 0 < d.denominator := Nat.pow_pos (by decide)

theorem toDouble_eq (d : Decimal) : d.toDouble = Double.ofCode false d.code := rfl

/-- Zeros at the end of the coefficient count as much in the exponent. -/
theorem code_shift (coefficient zeros : Nat) (exponent : Int) :
    code ⟨coefficient * 10 ^ zeros, exponent⟩ = code ⟨coefficient, exponent + zeros⟩ := by
  refine nearestCode_congr (denominator_pos _) (denominator_pos _) ?_
  have hpowers : zeros + exponent.toNat + (-(exponent + zeros)).toNat =
      (exponent + zeros).toNat + (-exponent).toNat := by omega
  simp only [numerator, denominator, Nat.mul_assoc, ← Nat.pow_add]
  rw [hpowers]

theorem code_trim (d : Decimal) : d.trim.code = d.code := by
  fun_induction trim d with
  | case1 d h ih =>
      have hten : d.coefficient = d.coefficient / 10 * 10 ^ (1 : Nat) := by omega
      have hshift := code_shift (d.coefficient / 10) 1 d.exponent
      rw [← hten] at hshift
      rw [ih]
      exact hshift.symm
  | case2 d _ => rfl

/-- A whole number over a power of two is a whole number over the same power of ten. -/
theorem code_five_pow (n bits : Nat) : code ⟨n * 5 ^ bits, -bits⟩ = nearestCode n (2 ^ bits) := by
  refine nearestCode_congr (denominator_pos _) (Nat.two_pow_pos bits) ?_
  have hzero : (-(bits : Int)).toNat = 0 := by omega
  have hbits : (- -(bits : Int)).toNat = bits := by omega
  rw [numerator, denominator, hzero, hbits, Nat.pow_zero, Nat.mul_one, Nat.mul_assoc, ← Nat.mul_pow]

theorem code_exact (magnitude : Nat) : (exact magnitude).code = magnitude :=
  (code_five_pow (units magnitude) 1074).trans (nearestCode_units magnitude)

/-- The shortest decimal of a magnitude reads back as the magnitude. -/
theorem code_shortest (magnitude : Nat) : (shortest magnitude).code = magnitude := by
  unfold shortest
  cases hfind : (List.range' 1 17).findSome? (withDigits? magnitude) with
  | none => exact code_exact magnitude
  | some d =>
      obtain ⟨count, _, hcount⟩ := List.exists_of_findSome?_eq_some hfind
      exact code_of_withDigits? hcount

/-! ## The point and the value -/

theorem coefficient_lt (d : Decimal) : d.coefficient < 10 ^ d.digits.length :=
  (Nat.length_toDigits_le_iff (by decide) Nat.length_toDigits_pos).1 (Nat.le_refl _)

theorem le_coefficient (h : 0 < d.coefficient) : 10 ^ (d.digits.length - 1) ≤ d.coefficient := by
  rcases Nat.eq_zero_or_pos (d.digits.length - 1) with hzero | hpos
  · rw [hzero]
    exact h
  · refine Nat.not_lt.1 fun hlt => ?_
    have hle : d.digits.length ≤ d.digits.length - 1 :=
      (Nat.length_toDigits_le_iff (by decide) hpos).2 hlt
    omega

/-- A decimal above zero is at least the power of ten that its point stands right behind. -/
theorem le_code_of_lt_point {power : Int} (h : 0 < d.coefficient) (hpoint : power < d.point) :
    code ⟨1, power⟩ ≤ d.code := by
  refine nearestCode_mono (denominator_pos _) d.denominator_pos ?_
  have hexponents : power.toNat + (-d.exponent).toNat ≤
      d.digits.length - 1 + d.exponent.toNat + (-power).toNat := by
    unfold point at hpoint
    omega
  calc 1 * 10 ^ power.toNat * d.denominator = 10 ^ (power.toNat + (-d.exponent).toNat) := by
        rw [Nat.one_mul, denominator, Nat.pow_add]
    _ ≤ 10 ^ (d.digits.length - 1 + d.exponent.toNat + (-power).toNat) :=
        Nat.pow_le_pow_right (by decide) hexponents
    _ = 10 ^ (d.digits.length - 1) * 10 ^ d.exponent.toNat * 10 ^ (-power).toNat := by
        rw [Nat.pow_add, Nat.pow_add]
    _ ≤ d.coefficient * 10 ^ d.exponent.toNat * 10 ^ (-power).toNat :=
        Nat.mul_le_mul_right _ (Nat.mul_le_mul_right _ (le_coefficient h))

/-- A decimal is at most the power of ten that its point stands right before. -/
theorem code_le_of_point_le {power : Int} (hpoint : d.point ≤ power) : d.code ≤ code ⟨1, power⟩ := by
  refine nearestCode_mono d.denominator_pos (denominator_pos _) ?_
  have hexponents : d.digits.length + d.exponent.toNat + (-power).toNat ≤
      power.toNat + (-d.exponent).toNat := by
    unfold point at hpoint
    omega
  calc d.coefficient * 10 ^ d.exponent.toNat * 10 ^ (-power).toNat
      ≤ 10 ^ d.digits.length * 10 ^ d.exponent.toNat * 10 ^ (-power).toNat :=
        Nat.mul_le_mul_right _ (Nat.mul_le_mul_right _ (Nat.le_of_lt d.coefficient_lt))
    _ = 10 ^ (d.digits.length + d.exponent.toNat + (-power).toNat) := by rw [Nat.pow_add, Nat.pow_add]
    _ ≤ 10 ^ (power.toNat + (-d.exponent).toNat) := Nat.pow_le_pow_right (by decide) hexponents
    _ = 1 * 10 ^ power.toNat * d.denominator := by rw [Nat.one_mul, denominator, Nat.pow_add]

theorem coefficient_pos_of_code (h : 0 < d.code) : 0 < d.coefficient := by
  refine Nat.pos_of_ne_zero fun hzero => ?_
  have hcode : d.code = 0 := by
    rw [code, numerator, hzero, Nat.zero_mul, nearestCode_zero d.denominator_pos]
  omega

/-! ## Between a millionth and `10 ^ 21` -/

theorem code_millionth : code ⟨1, -6⟩ = nearestCode 1 (10 ^ (6 : Nat)) := rfl

theorem code_ten_pow_twenty_one : code ⟨1, 21⟩ = nearestCode (10 ^ (21 : Nat)) 1 := rfl

/-- The code of the magnitude nearest to a millionth. -/
theorem nearestCode_millionth : nearestCode 1 (10 ^ (6 : Nat)) = 4517329193108106637 := by
  decide +kernel

/-- The code of `10 ^ 21`, which is a magnitude. -/
theorem nearestCode_ten_pow_twenty_one : nearestCode (10 ^ (21 : Nat)) 1 = 4921056587992461136 := by
  decide +kernel

theorem millionth_lt_nearestCode : 4517329193108106637 < nearestCode (10 ^ (21 : Nat)) 1 := by
  rw [nearestCode_ten_pow_twenty_one]
  decide

/-- A decimal of one digit that reads back is the shortest one if it is the first to be looked at. -/
theorem shortest_of_neighbours {count : Nat} {others : List Decimal}
    (hlength : (Nat.toDigits 10 (units magnitude * 10 ^ (324 : Nat) / 2 ^ (1074 : Nat))).length = count)
    (hneighbours : neighbours magnitude ((count : Int) - 325) = d :: others) (hcode : d.code = magnitude) :
    shortest magnitude = d := by
  have hleading : leadingPower magnitude + 1 - (1 : Nat) = (count : Int) - 325 := by
    rw [leadingPower, digitCount_eq_length_toDigits, hlength]
    omega
  have hfirst : withDigits? magnitude 1 = some d := by
    rw [withDigits?, hleading, hneighbours]
    simp [hcode]
  simp [shortest, List.range', hfirst]

theorem trim_shortest_millionth : (shortest 4517329193108106637).trim = ⟨1, -6⟩ := by
  have hneighbours : neighbours 4517329193108106637 ((318 : Nat) - 325) = [⟨10, -7⟩, ⟨9, -7⟩, ⟨10, -7⟩] := by
    decide +kernel
  have hshortest : shortest 4517329193108106637 = ⟨10, -7⟩ :=
    shortest_of_neighbours (by decide +kernel) hneighbours (by decide +kernel)
  rw [hshortest]
  simp [trim]

theorem trim_shortest_ten_pow_twenty_one : (shortest 4921056587992461136).trim = ⟨1, 21⟩ := by
  have hneighbours : neighbours 4921056587992461136 ((346 : Nat) - 325) = [⟨1, 21⟩, ⟨1, 21⟩, ⟨2, 21⟩] := by
    decide +kernel
  have hshortest : shortest 4921056587992461136 = ⟨1, 21⟩ :=
    shortest_of_neighbours (by decide +kernel) hneighbours (by decide +kernel)
  rw [hshortest]
  simp [trim]

/-- The point of the shortest decimal has at most five zeros between it and the first digit, and stands behind
the twenty-first digit at most, exactly from a millionth on and below `10 ^ 21`. -/
theorem point_shortest_iff (hpos : 0 < magnitude) :
    -5 ≤ (shortest magnitude).trim.point ∧ (shortest magnitude).trim.point ≤ 21 ↔
      nearestCode 1 (10 ^ (6 : Nat)) ≤ magnitude ∧ magnitude < nearestCode (10 ^ (21 : Nat)) 1 := by
  have hcode : (shortest magnitude).trim.code = magnitude := by rw [code_trim, code_shortest]
  have hcoefficient : 0 < (shortest magnitude).trim.coefficient := coefficient_pos_of_code (by rwa [hcode])
  have hlow : -6 < (shortest magnitude).trim.point ↔ nearestCode 1 (10 ^ (6 : Nat)) ≤ magnitude := by
    rw [← code_millionth]
    constructor
    · intro hlt
      exact Nat.le_trans (le_code_of_lt_point hcoefficient hlt) (Nat.le_of_eq hcode)
    · intro hle
      refine Int.not_le.1 fun hpoint => ?_
      have hge := code_le_of_point_le hpoint
      rw [hcode] at hge
      -- only the magnitude nearest to a millionth is left
      have heq : magnitude = 4517329193108106637 := by
        rw [← nearestCode_millionth]
        exact Nat.le_antisymm hge hle
      rw [heq, trim_shortest_millionth] at hpoint
      exact absurd hpoint (by decide)
  have hhigh : (shortest magnitude).trim.point ≤ 21 ↔ magnitude < nearestCode (10 ^ (21 : Nat)) 1 := by
    rw [← code_ten_pow_twenty_one]
    constructor
    · intro hpoint
      refine Nat.lt_of_le_of_ne (hcode ▸ code_le_of_point_le hpoint) fun heq => ?_
      -- the power of ten itself has its point one place further on
      rw [code_ten_pow_twenty_one, nearestCode_ten_pow_twenty_one] at heq
      rw [heq, trim_shortest_ten_pow_twenty_one] at hpoint
      exact absurd hpoint (by decide)
    · intro hlt
      refine Int.not_lt.1 fun hpoint => ?_
      have hge := le_code_of_lt_point hcoefficient hpoint
      rw [hcode] at hge
      omega
  rw [← hlow, ← hhigh]
  omega

end LoxSyntax.Number.Decimal
