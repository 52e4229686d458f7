/-
# LoxSyntax.Proofs.Number.Whole -- where the shortest decimal of a magnitude is a whole number

Below `10 ^ 16` a whole number is its own shortest decimal: the digits that are chosen are exactly those of
the number, without the zeros at its end (`IsShortest.value_eq_of_whole`). Up to `2 ^ 53` that is because every
whole number is a magnitude, so no other reads back. From there to `10 ^ 16` only the even ones are
magnitudes. But a decimal that leaves a digit out is a multiple of ten, so it is a magnitude itself; and
among those that leave out none, the number is the nearest to itself.

The other way round, a magnitude with a shortest decimal that is a whole number below `10 ^ 16` is one itself
(`IsShortest.isSmallWhole`).
-/
import LoxSyntax.Number.Respelled
import LoxSyntax.Proofs.Number.Minimal

namespace LoxSyntax.Number

-- powers, and the types of their exponents, are the same whatever else is imported
attribute [local instance (high)] instPowNat

variable {magnitude code whole : Nat} {d other : Decimal}

/-! ## Whole numbers that are magnitudes -/

theorem value_lt_value (h : magnitude < code) : value magnitude < value code :=
  div_lt_div_of_pos_right (by exact_mod_cast units_lt_units h) (two_pow_pos_rat 1074)

theorem value_le_value (h : magnitude ≤ code) : value magnitude ≤ value code :=
  div_le_div_of_nonneg_right (Nat.cast_le.2 (units_le_units h)) (two_pow_pos_rat 1074).le

theorem value_eq_of_units (h : units code = whole * 2 ^ (1074 : Nat)) : value code = whole := by
  simp only [value, h, Nat.cast_mul, Nat.cast_pow, Nat.cast_ofNat]
  exact mul_div_cancel_right₀ _ (two_pow_pos_rat 1074).ne'

theorem isSmallWhole_of_units (h : units magnitude = whole * 2 ^ (1074 : Nat)) (hlt : whole < 10 ^ (16 : Nat)) :
    IsSmallWhole magnitude := by
  refine ⟨?_, ?_⟩
  · rw [h]
    exact Nat.mul_mod_left _ _
  · rw [h, Nat.mul_div_cancel _ (Nat.two_pow_pos 1074)]
    exact hlt

theorem IsSmallWhole.units_eq (h : IsSmallWhole magnitude) :
    units magnitude = units magnitude / 2 ^ (1074 : Nat) * 2 ^ (1074 : Nat) :=
  (Nat.div_mul_cancel (Nat.dvd_of_mod_eq_zero h.1)).symm

theorem half_mul_two_pow (heven : whole % 2 = 0) (bits : ℕ) : whole / 2 * 2 ^ (bits + 1) = whole * 2 ^ bits := by
  have hhalf : whole / 2 * 2 = whole := by omega
  rw [Nat.pow_succ', ← Nat.mul_assoc, hhalf]

/-- Up to `2 ^ 53` all whole numbers are magnitudes, and up to `2 ^ 54` the even ones. -/
theorem exists_value_eq (h : whole ≤ 2 ^ (53 : Nat) ∨ (whole % 2 = 0 ∧ whole ≤ 2 ^ (54 : Nat))) :
    ∃ code, value code = whole := by
  rcases h with h | ⟨heven, h⟩
  · obtain ⟨code, hcode⟩ := exists_units_eq h 1074
    exact ⟨code, value_eq_of_units hcode⟩
  · obtain ⟨code, hcode⟩ := exists_units_eq (f := whole / 2) (by omega) (1074 + 1)
    exact ⟨code, value_eq_of_units (hcode.trans (half_mul_two_pow heven 1074))⟩

theorem exists_value_eq_ten_pow_sixteen : ∃ code, value code = (10 ^ (16 : ℕ) : Nat) :=
  exists_value_eq (.inr (by decide))

namespace Decimal

/-- A decimal that is the value of a magnitude reads back as that one. -/
theorem code_eq_of_value_eq_value (h : d.value = Number.value code) : d.code = code :=
  Nat.le_antisymm (code_le_of_value_le_magnitude h.le) (le_code_of_magnitude_le_value h.ge)

/-- A decimal that is a whole number and a magnitude reads back as nothing else. -/
theorem magnitude_eq_of_whole (hcode : d.code = magnitude) (hvalue : d.value = whole)
    (h : whole ≤ 2 ^ (53 : Nat) ∨ (whole % 2 = 0 ∧ whole ≤ 2 ^ (54 : Nat))) : Number.value magnitude = whole := by
  obtain ⟨code, hwhole⟩ := exists_value_eq h
  have hsame : d.code = code := code_eq_of_value_eq_value (hvalue.trans hwhole.symm)
  rw [← hcode, hsame, hwhole]

/-! ## Decimals that are whole numbers -/

theorem value_whole (coefficient : Nat) (zeros : ℕ) :
    (mk coefficient zeros).value = ((coefficient * 10 ^ zeros : Nat) : ℚ) := by
  rw [value, zpow_natCast, Nat.cast_mul, Nat.cast_pow, Nat.cast_ofNat]

/-- A decimal that reads back as a magnitude below `10 ^ 16` is below `10 ^ 16` itself. -/
theorem value_lt_ten_pow_sixteen (hcode : d.code = magnitude) (h : Number.value magnitude < (10 ^ (16 : ℕ) : Nat)) :
    d.value < (10 ^ (16 : ℕ) : Nat) := by
  obtain ⟨code, hten⟩ := exists_value_eq_ten_pow_sixteen
  rw [← hten] at h ⊢
  refine not_le.1 fun hle => ?_
  have hless : code ≤ magnitude := (le_code_of_magnitude_le_value hle).trans_eq hcode
  exact absurd (lt_of_le_of_lt (value_le_value hless) h) (lt_irrefl _)

theorem lt_ten_pow_of_exponent_nonpos (h : d.exponent ≤ 0) :
    d.value < (10 ^ digitCount d.coefficient : Nat) := by
  have hpower : (10 : ℚ) ^ d.exponent ≤ 1 := zpow_le_one_of_nonpos₀ (by norm_num) h
  calc d.value ≤ d.coefficient * 1 := mul_le_mul_of_nonneg_left hpower (Nat.cast_nonneg _)
    _ = d.coefficient := mul_one _
    _ < (10 ^ digitCount d.coefficient : Nat) := Nat.cast_lt.2 (lt_ten_pow_digitCount d.coefficient)

/-- A decimal without zeros at its end that is a whole number has no digits behind its point. -/
theorem exists_zeros_of_value_eq (htrimmed : d.coefficient % 10 ≠ 0) (h : d.value = whole) :
    ∃ zeros : ℕ, d.exponent = zeros ∧ d.coefficient * 10 ^ zeros = whole := by
  obtain ⟨coefficient, exponent⟩ := d
  rcases Int.lt_or_le exponent 0 with hneg | hpos
  · -- otherwise the last digit would be a zero
    obtain ⟨places, rfl⟩ : ∃ places : ℕ, exponent = -((places + 1 : ℕ) : Int) :=
      ⟨(-exponent - 1).toNat, by omega⟩
    have hten : (0 : ℚ) < 10 ^ (places + 1) := pow_pos (by norm_num) _
    have hcoefficient : (coefficient : ℚ) = (whole * 10 ^ (places + 1) : Nat) := by
      rw [value, zpow_neg, zpow_natCast, ← div_eq_mul_inv, div_eq_iff hten.ne'] at h
      rw [h, Nat.cast_mul, Nat.cast_pow, Nat.cast_ofNat]
    have hzero : coefficient % 10 = 0 := by
      rw [Nat.cast_inj.1 hcoefficient, Nat.pow_succ, ← Nat.mul_assoc, Nat.mul_mod_left]
    exact absurd hzero htrimmed
  · obtain ⟨zeros, rfl⟩ := Int.eq_ofNat_of_zero_le hpos
    exact ⟨zeros, rfl, Nat.cast_inj.1 ((value_whole coefficient zeros).symm.trans h)⟩

namespace IsShortest

/-- If a decimal of no more digits is the magnitude itself, the shortest one is. -/
theorem value_eq_of_digitCount_le (h : IsShortest magnitude d) (hvalue : other.value = Number.value magnitude)
    (hdigits : digitCount other.coefficient ≤ digitCount d.coefficient) : d.value = Number.value magnitude := by
  have hread : other.ReadsBack magnitude := readsBack_iff.2 (code_eq_of_value_eq_value hvalue)
  have hnear := asNear_iff.1 (h.nearest other hread (Nat.le_antisymm hdigits (h.shortest other hread)))
  rw [hvalue, sub_self, abs_zero] at hnear
  exact sub_eq_zero.1 (abs_nonpos_iff.1 hnear)

/-- A shortest decimal that ends before the point is a multiple of ten, and so a magnitude. -/
theorem value_eq_of_exponent_pos (h : IsShortest magnitude d) (hvalue : Number.value magnitude = whole)
    (hlt : whole < 10 ^ (16 : Nat)) (hexponent : 0 < d.exponent) : d.value = whole := by
  have hcode : d.code = magnitude := readsBack_iff.1 h.readsBack
  obtain ⟨zeros, hzeros⟩ : ∃ zeros : ℕ, d.exponent = (zeros + 1 : ℕ) := ⟨(d.exponent - 1).toNat, by omega⟩
  have hten : d.value = (d.coefficient * 10 ^ (zeros + 1) : Nat) := by
    rw [← value_whole, ← hzeros]
  have heven : d.coefficient * 10 ^ (zeros + 1) % 2 = 0 := by
    rw [Nat.pow_succ, ← Nat.mul_assoc]
    omega
  have hless : d.coefficient * 10 ^ (zeros + 1) < 10 ^ (16 : Nat) := by
    have hbelow := value_lt_ten_pow_sixteen hcode (by rw [hvalue]; exact Nat.cast_lt.2 hlt)
    rw [hten] at hbelow
    exact Nat.cast_lt.1 hbelow
  rw [hten, ← magnitude_eq_of_whole hcode hten (.inr ⟨heven, by omega⟩), hvalue]

/-- Otherwise it leaves out no digit of the number, for else a power of ten lies between the two. -/
theorem value_eq_of_exponent_nonpos (h : IsShortest magnitude d) (hvalue : Number.value magnitude = whole)
    (hpos : 0 < whole) (hlt : whole < 10 ^ (16 : Nat)) (hexponent : d.exponent ≤ 0) : d.value = whole := by
  have hcode : d.code = magnitude := readsBack_iff.1 h.readsBack
  have hexact : (Decimal.mk whole 0).trim.value = Number.value magnitude := by
    rw [value_trim, value, zpow_zero, mul_one, hvalue]
  have hbelow := lt_ten_pow_of_exponent_nonpos hexponent
  have hcount := digitCount_pos d.coefficient
  rw [← hvalue]
  refine h.value_eq_of_digitCount_le hexact ((digitCount_le_iff hcount).2 ?_)
  generalize digitCount d.coefficient = count at *
  refine coefficient_trim_lt hpos hcount (Nat.not_lt.1 fun hless : 10 ^ count < whole => ?_)
  have heven : 10 ^ count % 2 = 0 := by
    obtain ⟨fewer, rfl⟩ := Nat.exists_eq_succ_of_ne_zero hcount.ne'
    rw [Nat.pow_succ]
    omega
  obtain ⟨code, hten⟩ := exists_value_eq (.inr ⟨heven, by omega⟩)
  have hle : magnitude ≤ code := hcode ▸ code_le_of_value_le_magnitude (hbelow.le.trans_eq hten.symm)
  have hwhole : (whole : ℚ) ≤ (10 ^ count : Nat) := by
    rw [← hvalue, ← hten]
    exact value_le_value hle
  exact absurd (Nat.cast_le.1 hwhole) (Nat.not_le.2 hless)

/-- The shortest decimal of a whole number below `10 ^ 16` is that number. -/
theorem value_eq_of_whole (h : IsShortest magnitude d) (hvalue : Number.value magnitude = whole)
    (hpos : 0 < whole) (hlt : whole < 10 ^ (16 : Nat)) : d.value = whole := by
  rcases Int.lt_or_le 0 d.exponent with hexponent | hexponent
  · exact h.value_eq_of_exponent_pos hvalue hlt hexponent
  · exact h.value_eq_of_exponent_nonpos hvalue hpos hlt hexponent

/-- The magnitude `10 ^ 16` has one digit, so its shortest decimal is itself. -/
theorem value_lt_of_value_lt (h : IsShortest magnitude d) (hlt : d.value < (10 ^ (16 : ℕ) : Nat)) :
    Number.value magnitude < (10 ^ (16 : ℕ) : Nat) := by
  obtain ⟨code, hten⟩ := exists_value_eq_ten_pow_sixteen
  rw [← hten] at hlt ⊢
  have hle : magnitude ≤ code := readsBack_iff.1 h.readsBack ▸ code_le_of_value_le_magnitude hlt.le
  rcases Nat.lt_or_eq_of_le hle with hless | rfl
  · exact value_lt_value hless
  · have hone : (Decimal.mk 1 (16 : ℕ)).value = Number.value magnitude := by
      rw [hten, value_whole, Nat.one_mul]
    have hdigits : digitCount 1 ≤ digitCount d.coefficient :=
      ((digitCount_le_iff Nat.one_pos).2 (by decide)).trans (digitCount_pos _)
    exact absurd (h.value_eq_of_digitCount_le hone hdigits) hlt.ne

/-- Where the shortest decimal is a whole number below `10 ^ 16`, the magnitude is one. -/
theorem isSmallWhole (h : IsShortest magnitude d) (hvalue : d.value = whole) (hlt : whole < 10 ^ (16 : Nat)) :
    IsSmallWhole magnitude := by
  have hcode : d.code = magnitude := readsBack_iff.1 h.readsBack
  rcases Nat.lt_or_ge (2 ^ (53 : Nat)) whole with hlarge | hsmall
  · -- from `2 ^ 52` on all magnitudes are whole numbers
    obtain ⟨least, hleast⟩ := exists_units_eq (f := 2 ^ (52 : Nat)) (by decide) 1074
    have habove : least ≤ magnitude := by
      refine (le_code_of_magnitude_le_value ?_).trans_eq hcode
      rw [value_eq_of_units hleast, hvalue]
      exact Nat.cast_le.2 (by omega)
    obtain ⟨n, hn⟩ := exists_multiple_of_le (hleast.symm.trans_le (units_le_units habove))
    refine isSmallWhole_of_units hn ?_
    have hbelow := h.value_lt_of_value_lt (by rw [hvalue]; exact Nat.cast_lt.2 hlt)
    rw [value_eq_of_units hn] at hbelow
    exact Nat.cast_lt.1 hbelow
  · obtain ⟨code, hunits⟩ := exists_units_eq hsmall 1074
    have hsame : d.code = code := code_eq_of_value_eq_value (hvalue.trans (value_eq_of_units hunits).symm)
    rw [← hcode, hsame]
    exact isSmallWhole_of_units hunits hlt

/-- So is a magnitude whose shortest decimal has all its digits before a point at the sixteenth place at most. -/
theorem isSmallWhole_of_point_le (h : IsShortest magnitude d) (hexponent : 0 ≤ d.exponent) (hpoint : d.point ≤ 16) :
    IsSmallWhole magnitude := by
  obtain ⟨zeros, hzeros⟩ := Int.eq_ofNat_of_zero_le hexponent
  have hvalue : d.value = (d.coefficient * 10 ^ zeros : Nat) := by
    rw [← value_whole, ← hzeros]
  refine h.isSmallWhole hvalue ?_
  have hlength : d.digits.length + zeros ≤ 16 := by
    unfold point at hpoint
    omega
  calc d.coefficient * 10 ^ zeros < 10 ^ d.digits.length * 10 ^ zeros :=
        Nat.mul_lt_mul_of_pos_right d.coefficient_lt (Nat.pow_pos (by decide))
    _ = 10 ^ (d.digits.length + zeros) := (Nat.pow_add _ _ _).symm
    _ ≤ 10 ^ (16 : Nat) := Nat.pow_le_pow_right (by decide) hlength

end IsShortest

end Decimal

end LoxSyntax.Number
