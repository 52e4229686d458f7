/-
# LoxSyntax.Proofs.Number.Grid -- the decimals next to a magnitude

Decimals and magnitudes are compared as rationals. Rounding keeps the order of the values
(`code_le_of_value_le`), so between two decimals that read back every decimal does.

The decimals with an exponent form a GRID. The two on either side of a magnitude are its neighbours, and
the nearer one is tried first (`exists_neighbours`). If the grid is as fine as a number of digits allows,
no other decimal of that many digits lies between the two neighbours: either it is a point of the grid
itself, or it lies below the power of ten that the magnitude starts with (`value_le_or_le`). So if any
decimal of that many digits reads back, one of the neighbours does, and none that reads back is nearer
(`exists_withDigits?`).

Seventeen digits are enough for every magnitude (`exists_withDigits?_seventeen`). A magnitude is less than
`10 ^ 16` times as large as its distance from any other, and the grid is finer than that.
-/
import LoxSyntax.Proofs.Number.Nearest
import LoxSyntax.Proofs.Number.Shortest
import Mathlib.Algebra.Order.Field.Power
import Mathlib.Algebra.Order.Field.Rat
import Mathlib.Tactic.FieldSimp
import Mathlib.Tactic.Linarith
import Mathlib.Tactic.NormNum
import Mathlib.Tactic.Positivity
import Mathlib.Tactic.Ring

namespace LoxSyntax.Number

-- powers, and the types of their exponents, are the same whatever else is imported
attribute [local instance (high)] instPowNat

variable {magnitude count : Nat} {exponent : Int} {d other : Decimal}

/-! ## Values -/

/-- A magnitude as a rational. -/
def value (code : Nat) : ℚ := units code / 2 ^ (1074 : ℕ)

/-- A decimal as a rational. -/
def Decimal.value (d : Decimal) : ℚ := d.coefficient * 10 ^ d.exponent

theorem two_pow_pos_rat (count : ℕ) : (0 : ℚ) < 2 ^ count := pow_pos (by norm_num) count

theorem ten_zpow_pos (exponent : Int) : (0 : ℚ) < 10 ^ exponent := zpow_pos (by norm_num) exponent

/-- A whole power of ten is that of the positive part of the exponent over that of the negative one. -/
theorem ten_zpow_eq (exponent : Int) :
    (10 : ℚ) ^ exponent = (10 ^ exponent.toNat : ℚ) / 10 ^ (-exponent).toNat := by
  rcases Int.le_total 0 exponent with hpos | hneg
  · obtain ⟨n, rfl⟩ := Int.eq_ofNat_of_zero_le hpos
    simp
  · obtain ⟨n, hn⟩ : ∃ n : ℕ, exponent = -(n : Int) := ⟨(-exponent).toNat, by omega⟩
    subst hn
    simp

theorem Decimal.value_eq (d : Decimal) : d.value = (d.numerator : ℚ) / d.denominator := by
  rw [Decimal.value, ten_zpow_eq, Decimal.numerator, Decimal.denominator]
  push_cast
  ring

theorem value_pos (h : 0 < magnitude) : 0 < value magnitude := by
  have hunits : 0 < units magnitude := Nat.lt_of_le_of_lt (Nat.zero_le _) (units_lt_units h)
  exact div_pos (by exact_mod_cast hunits) (two_pow_pos_rat _)

/-- The code that is nearest to a rational depends on it monotonically. -/
theorem nearestCode_le_of_div_le {n d n' d' : Nat} (hd : 0 < d) (hd' : 0 < d')
    (h : (n : ℚ) / d ≤ (n' : ℚ) / d') : nearestCode n d ≤ nearestCode n' d' := by
  refine nearestCode_mono hd hd' ?_
  rw [div_le_div_iff₀ (by exact_mod_cast hd) (by exact_mod_cast hd')] at h
  exact_mod_cast h

namespace Decimal

theorem code_le_of_value_le (h : d.value ≤ other.value) : d.code ≤ other.code := by
  rw [value_eq, value_eq] at h
  exact nearestCode_le_of_div_le d.denominator_pos other.denominator_pos h

theorem value_exact (code : Nat) : (exact code).value = Number.value code := by
  have hfive : (5 : ℚ) ^ (1074 : ℕ) * 10 ^ (-1074 : Int) = 1 / 2 ^ (1074 : ℕ) := by
    rw [zpow_neg, ← div_eq_mul_inv]
    have hten : (10 : ℚ) ^ (1074 : Int) = 5 ^ (1074 : ℕ) * 2 ^ (1074 : ℕ) := by
      rw [← mul_pow]
      norm_num
    rw [hten, ← div_div, div_self (pow_ne_zero _ (by norm_num))]
  simp only [value, exact, Number.value, Nat.cast_mul, Nat.cast_pow, Nat.cast_ofNat]
  rw [mul_assoc, hfive, mul_one_div]

theorem code_le_of_value_le_magnitude (h : d.value ≤ Number.value magnitude) : d.code ≤ magnitude := by
  rw [← value_exact] at h
  exact (code_le_of_value_le h).trans_eq (code_exact magnitude)

theorem le_code_of_magnitude_le_value (h : Number.value magnitude ≤ d.value) : magnitude ≤ d.code := by
  rw [← value_exact] at h
  exact (code_exact magnitude).symm.trans_le (code_le_of_value_le h)

/-- A decimal between a magnitude and one that reads back reads back. -/
theorem code_eq_of_between (hother : other.code = magnitude)
    (h : (other.value ≤ d.value ∧ d.value ≤ Number.value magnitude) ∨
      (Number.value magnitude ≤ d.value ∧ d.value ≤ other.value)) : d.code = magnitude := by
  rcases h with ⟨hlow, hhigh⟩ | ⟨hlow, hhigh⟩
  · exact Nat.le_antisymm (code_le_of_value_le_magnitude hhigh) (hother ▸ code_le_of_value_le hlow)
  · exact Nat.le_antisymm (hother ▸ code_le_of_value_le hhigh) (le_code_of_magnitude_le_value hlow)

end Decimal

/-! ## Distances -/

theorem gap_cast (a b : Nat) : ((gap a b : Nat) : ℚ) = |(a : ℚ) - b| := by
  unfold gap
  rcases Nat.le_total a b with hle | hle
  · rw [Nat.max_eq_right hle, Nat.min_eq_left hle, Nat.cast_sub hle, abs_sub_comm,
      abs_of_nonneg (sub_nonneg.2 (by exact_mod_cast hle))]
  · rw [Nat.max_eq_left hle, Nat.min_eq_right hle, Nat.cast_sub hle,
      abs_of_nonneg (sub_nonneg.2 (by exact_mod_cast hle))]

/-- How far a whole number is from a quotient. -/
theorem abs_sub_div {d : Nat} (hd : 0 < d) (n j : Nat) :
    |(j : ℚ) - (n : ℚ) / d| = ((gap (j * d) n : Nat) : ℚ) / d := by
  have hd' : (0 : ℚ) < d := Nat.cast_pos.2 hd
  have hsplit : (j : ℚ) - n / d = (j * d - n) / d := by
    field_simp
  rw [gap_cast, Nat.cast_mul, hsplit, abs_div, abs_of_pos hd']

theorem distance_cast {n d : Nat} (hd : 0 < d) (code : Nat) :
    (distance n d code : ℚ) = d * 2 ^ (1074 : ℕ) * |(n : ℚ) / d - value code| := by
  have hd' : (0 : ℚ) < d := by exact_mod_cast hd
  have hscale := two_pow_pos_rat 1074
  simp only [distance_eq, gap_cast, value, Nat.cast_mul, Nat.cast_pow, Nat.cast_ofNat]
  generalize (2 : ℚ) ^ (1074 : ℕ) = scale at *
  have hsplit : (units code : ℚ) * d - n * scale = -(d * scale * (n / d - units code / scale)) := by
    field_simp
    ring
  rw [hsplit, abs_neg, abs_mul, abs_of_pos (mul_pos hd' hscale)]

namespace Decimal

theorem distance_eq_mul (d : Decimal) (code : Nat) :
    (distance d.numerator d.denominator code : ℚ) =
      d.denominator * 2 ^ (1074 : ℕ) * |d.value - Number.value code| := by
  rw [distance_cast d.denominator_pos, ← value_eq]

/-- One decimal is at least as near as another if its value is. -/
theorem asNear_iff :
    AsNear magnitude d other ↔
      |d.value - Number.value magnitude| ≤ |other.value - Number.value magnitude| := by
  have hd : (0 : ℚ) < d.denominator := by exact_mod_cast d.denominator_pos
  have hother : (0 : ℚ) < other.denominator := by exact_mod_cast other.denominator_pos
  have hscale := two_pow_pos_rat 1074
  have hcast : AsNear magnitude d other ↔
      (distance d.numerator d.denominator magnitude : ℚ) * other.denominator ≤
        distance other.numerator other.denominator magnitude * d.denominator := by
    rw [AsNear]
    exact_mod_cast Iff.rfl
  rw [hcast, distance_eq_mul, distance_eq_mul]
  generalize (2 : ℚ) ^ (1074 : ℕ) = scale at *
  have hcommon : (0 : ℚ) < d.denominator * scale * other.denominator :=
    mul_pos (mul_pos hd hscale) hother
  rw [mul_right_comm, mul_right_comm (other.denominator * scale), mul_comm (other.denominator * scale) _,
    ← mul_assoc, mul_comm (d.denominator * other.denominator : ℚ) scale, ← mul_assoc,
    mul_comm scale (d.denominator : ℚ), mul_le_mul_iff_right₀ hcommon]

/-- A decimal reads back if no other magnitude is as near to it. -/
theorem code_eq_of_nearer
    (h : ∀ code, code ≠ magnitude → |d.value - Number.value magnitude| < |d.value - Number.value code|) :
    d.code = magnitude := by
  have hpos : (0 : ℚ) < d.denominator * 2 ^ (1074 : ℕ) :=
    mul_pos (by exact_mod_cast d.denominator_pos) (two_pow_pos_rat 1074)
  have hlt : ∀ code, code ≠ magnitude → distance d.numerator d.denominator magnitude <
      distance d.numerator d.denominator code := by
    intro code hne
    have hless := mul_lt_mul_of_pos_left (h code hne) hpos
    rw [← distance_eq_mul, ← distance_eq_mul] at hless
    exact_mod_cast hless
  refine (roundsTo_iff d.denominator_pos).1 ⟨fun code => ?_, fun code hsame => ?_⟩
  · rcases eq_or_ne code magnitude with rfl | hne
    · exact Nat.le_refl _
    · exact Nat.le_of_lt (hlt code hne)
  · rcases eq_or_ne code magnitude with rfl | hne
    · exact .inl rfl
    · exact absurd hsame (Nat.ne_of_gt (hlt code hne))

end Decimal

/-! ## The first digit -/

/-- A natural has as many digits as it takes to stay below the power of ten. -/
theorem digitCount_le_iff {n : Nat} (h : 0 < count) : digitCount n ≤ count ↔ n < 10 ^ count := by
  rw [digitCount_eq_length_toDigits, Nat.length_toDigits_le_iff (by decide) h]

theorem digitCount_pos (n : Nat) : 0 < digitCount n := by
  rw [digitCount_eq_length_toDigits]
  exact Nat.length_toDigits_pos

theorem lt_ten_pow_digitCount (n : Nat) : n < 10 ^ digitCount n :=
  (digitCount_le_iff (digitCount_pos n)).1 (Nat.le_refl _)

theorem ten_pow_le_of_pos {n : Nat} (h : 0 < n) : 10 ^ (digitCount n - 1) ≤ n := by
  have hle := (Decimal.mk n 0).le_coefficient h
  rwa [Decimal.digits, ← digitCount_eq_length_toDigits] at hle

/-- A power of ten, counted in units and scaled by `10 ^ 324`. -/
theorem ten_zpow_mul_units (n : ℕ) :
    (10 : ℚ) ^ ((n : Int) - 324) * (10 ^ (324 : ℕ) * 2 ^ (1074 : ℕ)) = (10 ^ n * 2 ^ (1074 : ℕ) : Nat) := by
  have hsum : (10 : ℚ) ^ ((n : Int) - 324) * 10 ^ (324 : ℕ) = 10 ^ n := by
    rw [← zpow_natCast, ← zpow_natCast, ← zpow_add₀ (by norm_num)]
    exact congrArg _ (by omega)
  rw [← mul_assoc, hsum]
  simp only [Nat.cast_mul, Nat.cast_pow, Nat.cast_ofNat]

/-- A magnitude, counted in units and scaled by as much. -/
theorem value_mul_units (magnitude : Nat) :
    value magnitude * (10 ^ (324 : ℕ) * 2 ^ (1074 : ℕ)) = (units magnitude * 10 ^ (324 : ℕ) : Nat) := by
  have hne : (2 : ℚ) ^ (1074 : ℕ) ≠ 0 := (two_pow_pos_rat _).ne'
  simp only [value, Nat.cast_mul, Nat.cast_pow, Nat.cast_ofNat]
  rw [mul_comm (10 ^ (324 : ℕ) : ℚ), ← mul_assoc, div_mul_cancel₀ _ hne]

/-- A magnitude lies between the power of ten that its first digit counts and the next one. -/
theorem leadingPower_spec (h : 0 < magnitude) :
    (10 : ℚ) ^ Decimal.leadingPower magnitude ≤ value magnitude ∧
      value magnitude < 10 ^ (Decimal.leadingPower magnitude + 1) := by
  let scaled := units magnitude * 10 ^ (324 : ℕ)
  let count := digitCount (scaled / 2 ^ (1074 : ℕ))
  have hunits : 0 < units magnitude := Nat.lt_of_le_of_lt (Nat.zero_le _) (units_lt_units h)
  have hbits : 2 ^ (1074 : ℕ) ≤ 10 ^ (324 : ℕ) := by decide +kernel
  have hwhole : 0 < scaled / 2 ^ (1074 : ℕ) :=
    Nat.div_pos (hbits.trans (Nat.le_mul_of_pos_left _ hunits)) (Nat.two_pow_pos 1074)
  have hlow : 10 ^ (count - 1) * 2 ^ (1074 : ℕ) ≤ scaled :=
    (Nat.le_div_iff_mul_le (Nat.two_pow_pos 1074)).1 (ten_pow_le_of_pos hwhole)
  have hhigh : scaled < 10 ^ count * 2 ^ (1074 : ℕ) :=
    (Nat.div_lt_iff_lt_mul (Nat.two_pow_pos 1074)).1 (lt_ten_pow_digitCount _)
  have hcount : 0 < count := digitCount_pos _
  have hpower : Decimal.leadingPower magnitude = (count : Int) - 325 := rfl
  have hfirst : Decimal.leadingPower magnitude = ((count - 1 : ℕ) : Int) - 324 := by omega
  have hnext : Decimal.leadingPower magnitude + 1 = (count : Int) - 324 := by omega
  have hscale : (0 : ℚ) < 10 ^ (324 : ℕ) * 2 ^ (1074 : ℕ) :=
    mul_pos (pow_pos (by norm_num) _) (two_pow_pos_rat _)
  constructor
  · refine le_of_mul_le_mul_right ?_ hscale
    rw [value_mul_units, hfirst, ten_zpow_mul_units]
    exact Nat.cast_le.2 hlow
  · refine lt_of_mul_lt_mul_right ?_ hscale.le
    rw [value_mul_units, hnext, ten_zpow_mul_units]
    exact Nat.cast_lt.2 hhigh

/-! ## Neighbours on a grid -/

namespace Decimal

/-- What stands on either side of a magnitude on the grid of an exponent, and the nearer one of the two,
nearer than any other decimal of the grid. -/
structure Beside (magnitude : Nat) (exponent : Int) (rounded floor : Nat) : Prop where
  side : rounded = floor ∨ rounded = floor + 1
  le : (mk floor exponent).value ≤ Number.value magnitude
  lt : Number.value magnitude < (mk (floor + 1) exponent).value
  nearest : ∀ j, |(mk rounded exponent).value - Number.value magnitude| ≤
    |(mk j exponent).value - Number.value magnitude|

/-- Where a magnitude is a quotient of grid steps, the quotient rounded and its whole part stand beside it. -/
theorem beside_of_value_eq {numerator denominator : Nat} (hpos : 0 < denominator)
    (hvalue : Number.value magnitude = (numerator : ℚ) / denominator * 10 ^ exponent) :
    Beside magnitude exponent (roundHalfEven numerator denominator) (numerator / denominator) := by
  have hten := ten_zpow_pos exponent
  have hpos' : (0 : ℚ) < denominator := Nat.cast_pos.2 hpos
  have hdistance : ∀ j, |(mk j exponent).value - Number.value magnitude| =
      ((gap (j * denominator) numerator : Nat) : ℚ) / denominator * 10 ^ exponent := by
    intro j
    rw [value, hvalue, ← sub_mul, abs_mul, abs_of_pos hten, abs_sub_div hpos]
  refine ⟨?_, ?_, ?_, ?_⟩
  · have hlow := div_le_roundHalfEven numerator denominator
    have hhigh := roundHalfEven_le_succ numerator denominator
    omega
  · rw [value, hvalue]
    refine mul_le_mul_of_nonneg_right ?_ hten.le
    rw [le_div_iff₀ hpos']
    exact_mod_cast Nat.div_mul_le_self numerator denominator
  · rw [value, hvalue]
    refine mul_lt_mul_of_pos_right ?_ hten
    rw [div_lt_iff₀ hpos']
    have hlt : numerator < (numerator / denominator + 1) * denominator :=
      (Nat.div_lt_iff_lt_mul hpos).1 (Nat.lt_succ_self _)
    exact_mod_cast hlt
  · intro j
    rw [hdistance, hdistance]
    refine mul_le_mul_of_nonneg_right (div_le_div_of_nonneg_right ?_ hpos'.le) hten.le
    exact_mod_cast (roundHalfEven_nearest hpos numerator j).1

theorem exists_neighbours (magnitude : Nat) (exponent : Int) :
    ∃ rounded floor, neighbours magnitude exponent =
        [⟨rounded, exponent⟩, ⟨floor, exponent⟩, ⟨floor + 1, exponent⟩] ∧
      Beside magnitude exponent rounded floor := by
  let numerator := units magnitude * 10 ^ (-exponent).toNat
  let denominator := 2 ^ (1074 : ℕ) * 10 ^ exponent.toNat
  have hpos : 0 < denominator := by
    simp only [denominator]
    positivity
  have hneighbours : neighbours magnitude exponent =
      [⟨roundHalfEven numerator denominator, exponent⟩, ⟨numerator / denominator, exponent⟩,
        ⟨numerator / denominator + 1, exponent⟩] := by
    simp only [neighbours, List.map_cons, List.map_nil, numerator, denominator]
  have hvalue : Number.value magnitude = (numerator : ℚ) / denominator * 10 ^ exponent := by
    have hlow : (0 : ℚ) < 10 ^ (-exponent).toNat := pow_pos (by norm_num) _
    have hhigh : (0 : ℚ) < 10 ^ exponent.toNat := pow_pos (by norm_num) _
    have hbits := two_pow_pos_rat 1074
    simp only [numerator, denominator, Number.value, ten_zpow_eq, Nat.cast_mul, Nat.cast_pow, Nat.cast_ofNat]
    generalize (2 : ℚ) ^ (1074 : ℕ) = bits at *
    field_simp
  -- which quotient it is does not matter any more
  clear_value numerator denominator
  exact ⟨_, _, hneighbours, beside_of_value_eq hpos hvalue⟩

/-- A decimal of a number of digits lies on the finest grid that these digits allow for a magnitude, or
below the first power of ten there. So it does not lie between the magnitude's neighbours. -/
theorem value_le_or_le {power : Int} {floor : Nat} (hfirst : (10 : ℚ) ^ power ≤ (mk floor (power + 1 - count)).value)
    (hdigits : other.coefficient < 10 ^ count) :
    other.value ≤ (mk floor (power + 1 - count)).value ∨ (mk (floor + 1) (power + 1 - count)).value ≤ other.value := by
  rcases Int.lt_or_le other.exponent (power + 1 - count) with hlt | hge
  · left
    calc other.value ≤ 10 ^ count * 10 ^ other.exponent := by
          refine mul_le_mul_of_nonneg_right ?_ (ten_zpow_pos _).le
          exact_mod_cast hdigits.le
      _ = 10 ^ ((count : Int) + other.exponent) := by
          rw [zpow_add₀ (by norm_num), zpow_natCast]
      _ ≤ 10 ^ power := zpow_le_zpow_right₀ (by norm_num) (by omega)
      _ ≤ _ := hfirst
  · -- on the grid, a decimal is a whole number of steps
    obtain ⟨zeros, hzeros⟩ : ∃ zeros : ℕ, other.exponent = zeros + (power + 1 - count) :=
      ⟨(other.exponent - (power + 1 - count)).toNat, by omega⟩
    have hsteps : other.value = (mk (other.coefficient * 10 ^ zeros) (power + 1 - count)).value := by
      rw [value, value, hzeros, zpow_add₀ (by norm_num), zpow_natCast]
      simp only [Nat.cast_mul, Nat.cast_pow, Nat.cast_ofNat]
      rw [mul_assoc]
    rw [hsteps]
    rcases Nat.lt_or_ge floor (other.coefficient * 10 ^ zeros) with hless | hmore
    · right
      refine mul_le_mul_of_nonneg_right ?_ (ten_zpow_pos _).le
      exact_mod_cast hless
    · left
      refine mul_le_mul_of_nonneg_right ?_ (ten_zpow_pos _).le
      exact_mod_cast hmore

section Search

variable {rounded floor : Nat}

theorem value_ten_pow (zeros : ℕ) (exponent : Int) : (mk (10 ^ zeros) exponent).value = 10 ^ (zeros + exponent) := by
  rw [value, zpow_add₀ (by norm_num), zpow_natCast, Nat.cast_pow, Nat.cast_ofNat]

theorem value_succ (j : Nat) (exponent : Int) :
    (mk (j + 1) exponent).value = (mk j exponent).value + 10 ^ exponent := by
  rw [value, value]
  push_cast
  ring

theorem value_mono {j k : Nat} (h : j ≤ k) (exponent : Int) : (mk j exponent).value ≤ (mk k exponent).value :=
  mul_le_mul_of_nonneg_right (by exact_mod_cast h) (ten_zpow_pos _).le

theorem lt_of_value_lt {j k : Nat} (h : (mk j exponent).value < (mk k exponent).value) : j < k :=
  Nat.not_le.1 fun hle => absurd h (not_lt.2 (value_mono hle exponent))

/-- Below a magnitude, the grid for a number of digits has a decimal of so many digits. -/
theorem floor_bounds_of_beside (h : Beside magnitude (leadingPower magnitude + 1 - count) rounded floor)
    (hmagnitude : 0 < magnitude) (hcount : 0 < count) : 10 ^ (count - 1) ≤ floor ∧ floor < 10 ^ count := by
  obtain ⟨hlow, hhigh⟩ := leadingPower_spec hmagnitude
  have hfirst : ((count - 1 : ℕ) : Int) + (leadingPower magnitude + 1 - count) = leadingPower magnitude := by omega
  have hnext : (count : Int) + (leadingPower magnitude + 1 - count) = leadingPower magnitude + 1 := by omega
  constructor
  · have hlt : (mk (10 ^ (count - 1)) (leadingPower magnitude + 1 - count)).value <
        (mk (floor + 1) (leadingPower magnitude + 1 - count)).value := by
      rw [value_ten_pow, hfirst]
      exact lt_of_le_of_lt hlow h.lt
    exact Nat.le_of_lt_succ (lt_of_value_lt hlt)
  · have hlt : (mk floor (leadingPower magnitude + 1 - count)).value <
        (mk (10 ^ count) (leadingPower magnitude + 1 - count)).value := by
      rw [value_ten_pow, hnext]
      exact lt_of_le_of_lt h.le hhigh
    exact lt_of_value_lt hlt

/-- Where a decimal beyond the neighbours reads back, so does the neighbour before it, and it is nearer. -/
theorem exists_side_of_beside (h : Beside magnitude exponent rounded floor) (hread : other.code = magnitude)
    (hside : other.value ≤ (mk floor exponent).value ∨ (mk (floor + 1) exponent).value ≤ other.value) :
    ∃ j, (j = floor ∨ j = floor + 1) ∧ (mk j exponent).code = magnitude ∧
      |(mk j exponent).value - Number.value magnitude| ≤ |other.value - Number.value magnitude| := by
  have hle := h.le
  have hlt := h.lt
  rcases hside with hside | hside
  · refine ⟨floor, .inl rfl, code_eq_of_between hread (.inl ⟨hside, hle⟩), ?_⟩
    rw [abs_of_nonpos (by linarith), abs_of_nonpos (by linarith)]
    linarith
  · refine ⟨floor + 1, .inr rfl, code_eq_of_between hread (.inr ⟨hlt.le, hside⟩), ?_⟩
    rw [abs_of_nonneg (by linarith), abs_of_nonneg (by linarith)]
    linarith

/-- If one of the neighbours reads back, one is found that does and is at least as near. -/
theorem exists_find?_of_beside (h : Beside magnitude exponent rounded floor) {j : Nat}
    (hj : j = floor ∨ j = floor + 1) (hread : (mk j exponent).code = magnitude) :
    ∃ d : Decimal, [mk rounded exponent, mk floor exponent, mk (floor + 1) exponent].find?
        (·.code == magnitude) = some d ∧
      |d.value - Number.value magnitude| ≤ |(mk j exponent).value - Number.value magnitude| := by
  by_cases hrounded : (mk rounded exponent).code = magnitude
  · exact ⟨⟨rounded, exponent⟩, by simp [hrounded], h.nearest j⟩
  · -- the nearer one does not read back, so it is the other one that does
    have hne : j ≠ rounded := by
      rintro rfl
      exact hrounded hread
    refine ⟨⟨j, exponent⟩, ?_, le_refl _⟩
    rcases h.side with rfl | rfl
    · obtain rfl := hj.resolve_left hne
      simp [hrounded, hread]
    · obtain rfl := hj.resolve_right hne
      simp [hrounded, hread]

end Search

/-- If any decimal of a number of digits reads back, one is found that does, and is at least as near. -/
theorem exists_withDigits? (hmagnitude : 0 < magnitude) (hcount : 0 < count)
    (hdigits : other.coefficient < 10 ^ count) (hread : other.code = magnitude) :
    ∃ d, withDigits? magnitude count = some d ∧
      |d.value - Number.value magnitude| ≤ |other.value - Number.value magnitude| := by
  obtain ⟨rounded, floor, hneighbours, hbeside⟩ :=
    exists_neighbours magnitude (leadingPower magnitude + 1 - count)
  have hfirst : (10 : ℚ) ^ leadingPower magnitude ≤ (mk floor (leadingPower magnitude + 1 - count)).value := by
    have hpower : ((count - 1 : ℕ) : Int) + (leadingPower magnitude + 1 - count) = leadingPower magnitude := by omega
    rw [← hpower, ← value_ten_pow, hpower]
    exact value_mono (floor_bounds_of_beside hbeside hmagnitude hcount).1 _
  obtain ⟨j, hj, hcode, hnear⟩ := exists_side_of_beside hbeside hread (value_le_or_le hfirst hdigits)
  obtain ⟨d, hfind, hle⟩ := exists_find?_of_beside hbeside hj hcode
  exact ⟨d, by rw [withDigits?, hneighbours, hfind], hle.trans hnear⟩

/-- What is found for a number of digits has at most as many, or is the next power of ten. -/
theorem coefficient_le_of_withDigits? (hmagnitude : 0 < magnitude) (hcount : 0 < count)
    (h : withDigits? magnitude count = some d) : d.coefficient ≤ 10 ^ count := by
  obtain ⟨rounded, floor, hneighbours, hbeside⟩ :=
    exists_neighbours magnitude (leadingPower magnitude + 1 - count)
  have hfloor := (floor_bounds_of_beside hbeside hmagnitude hcount).2
  have hside := hbeside.side
  rw [withDigits?, hneighbours] at h
  have hmem := List.mem_of_find?_eq_some h
  simp only [List.mem_cons, List.not_mem_nil, or_false] at hmem
  rcases hmem with rfl | rfl | rfl
  · show rounded ≤ 10 ^ count
    omega
  · exact hfloor.le
  · exact hfloor

/-! ## Seventeen digits -/

/-- A magnitude is less than `10 ^ 16` times as large as its distance from any other. -/
theorem value_lt_mul_abs_sub {code : Nat} (h : code ≠ magnitude) :
    Number.value magnitude < 10 ^ (16 : ℕ) * |Number.value code - Number.value magnitude| := by
  have hbits := two_pow_pos_rat 1074
  have hunits : (units magnitude : ℚ) < 10 ^ (16 : ℕ) * |(units code : ℚ) - units magnitude| := by
    rcases Nat.lt_or_gt_of_ne h with hlt | hgt
    · have hless := units_lt_mul_sub hlt
      have hle := (units_lt_units hlt).le
      rw [abs_sub_comm, abs_of_nonneg (sub_nonneg.2 (Nat.cast_le.2 hle)), ← Nat.cast_sub hle]
      exact_mod_cast hless
    · have hless := (units_lt_units hgt).trans (units_lt_mul_sub hgt)
      have hle := (units_lt_units hgt).le
      rw [abs_of_nonneg (sub_nonneg.2 (Nat.cast_le.2 hle)), ← Nat.cast_sub hle]
      exact_mod_cast hless
  rw [Number.value, Number.value, ← sub_div, abs_div, abs_of_pos hbits, ← mul_div_assoc]
  exact div_lt_div_of_pos_right hunits hbits

/-- Seventeen digits are enough for every magnitude. -/
theorem exists_withDigits?_seventeen (hmagnitude : 0 < magnitude) : ∃ d, withDigits? magnitude 17 = some d := by
  obtain ⟨rounded, floor, hneighbours, hbeside⟩ :=
    exists_neighbours magnitude (leadingPower magnitude + 1 - (17 : ℕ))
  have hstep : (10 : ℚ) ^ (leadingPower magnitude + 1 - (17 : ℕ)) * 10 ^ (16 : ℕ) ≤ Number.value magnitude := by
    have hsum : leadingPower magnitude + 1 - ((17 : ℕ) : Int) + ((16 : ℕ) : Int) = leadingPower magnitude := by omega
    rw [← zpow_natCast, ← zpow_add₀ (by norm_num), hsum]
    exact (leadingPower_spec hmagnitude).1
  generalize hexponent : leadingPower magnitude + 1 - ((17 : ℕ) : Int) = exponent at *
  -- the nearer neighbour is at most half a step away, and other magnitudes are more than a step
  have hhalf : 2 * |(mk rounded exponent).value - Number.value magnitude| ≤ 10 ^ exponent := by
    have hlow := hbeside.nearest floor
    have hhigh := hbeside.nearest (floor + 1)
    have hnext := value_succ floor exponent
    have hle := hbeside.le
    have hlt := hbeside.lt
    rw [abs_of_nonpos (by linarith : (mk floor exponent).value - Number.value magnitude ≤ 0)] at hlow
    rw [abs_of_nonneg (by linarith : 0 ≤ (mk (floor + 1) exponent).value - Number.value magnitude)] at hhigh
    linarith
  have hread : (mk rounded exponent).code = magnitude := by
    refine code_eq_of_nearer fun code hne => ?_
    have hfar : (10 : ℚ) ^ exponent < |Number.value code - Number.value magnitude| := by
      refine lt_of_mul_lt_mul_left ?_ (by positivity : (0 : ℚ) ≤ 10 ^ (16 : ℕ))
      rw [mul_comm]
      exact lt_of_le_of_lt hstep (value_lt_mul_abs_sub hne)
    have htriangle := abs_sub_le (Number.value code) (mk rounded exponent).value (Number.value magnitude)
    rw [abs_sub_comm (Number.value code) (mk rounded exponent).value] at htriangle
    linarith
  obtain ⟨d, hfind, -⟩ := exists_find?_of_beside hbeside hbeside.side hread
  exact ⟨d, by rw [withDigits?, hexponent, hneighbours, hfind]⟩

end Decimal

end LoxSyntax.Number
