/-
# LoxSyntax.Proofs.Number.Rounding -- rounding keeps order, and is exact on magnitudes

The code nearest to a quotient depends on the quotient only, not on how it is written
(`nearestCode_congr`). A greater quotient never has a lesser code (`nearestCode_mono`), and the code of a
magnitude is the magnitude itself (`nearestCode_units`).

All three come from what `dropped` and `significand` are to a quotient: the quotient in units, without
its dropped bits, lies below `2 ^ 53`, and not below `2 ^ 52` if any bit was dropped. So where two
quotients drop differently many bits, the codes are told apart by that alone.
-/
import LoxSyntax.Number.Binary64

namespace LoxSyntax.Number

-- powers, and the types of their exponents, are the same whatever else is imported
attribute [local instance (high)] instPowNat

variable {n d n' d' k : Nat}

/-! ## Rounding to whole numbers -/

theorem div_le_roundHalfEven (n d : Nat) : n / d ≤ roundHalfEven n d := by
  unfold roundHalfEven
  dsimp only
  split
  · exact Nat.le_refl _
  · split <;> omega

theorem roundHalfEven_le_succ (n d : Nat) : roundHalfEven n d ≤ n / d + 1 := by
  unfold roundHalfEven
  dsimp only
  split
  · omega
  · split <;> omega

theorem roundHalfEven_mul_left (hk : 0 < k) (n d : Nat) :
    roundHalfEven (k * n) (k * d) = roundHalfEven n d := by
  have hless : 2 * (k * (n % d)) < k * d ↔ 2 * (n % d) < d := by
    rw [Nat.mul_left_comm]
    exact Nat.mul_lt_mul_left hk
  have hmore : k * d < 2 * (k * (n % d)) ↔ d < 2 * (n % d) := by
    rw [Nat.mul_left_comm]
    exact Nat.mul_lt_mul_left hk
  simp only [roundHalfEven, Nat.mul_div_mul_left _ _ hk, Nat.mul_mod_mul_left, hless, hmore]

theorem roundHalfEven_le_of_le (h : n ≤ n') (d : Nat) : roundHalfEven n d ≤ roundHalfEven n' d := by
  rcases Nat.lt_or_eq_of_le (Nat.div_le_div_right h : n / d ≤ n' / d) with hlt | heq
  · calc roundHalfEven n d ≤ n / d + 1 := roundHalfEven_le_succ n d
      _ ≤ n' / d := hlt
      _ ≤ roundHalfEven n' d := div_le_roundHalfEven n' d
  · -- over the same whole number, the greater remainder is rounded up if the lesser one is
    have hmod : n % d ≤ n' % d := by
      have hn := Nat.div_add_mod n d
      have hn' := Nat.div_add_mod n' d
      rw [← heq] at hn'
      omega
    simp only [roundHalfEven, ← heq]
    generalize n / d = floor
    split <;> split <;> (try split) <;> (try split) <;> omega

/-- Rounding keeps order. -/
theorem roundHalfEven_mono (hd : 0 < d) (hd' : 0 < d') (h : n * d' ≤ n' * d) :
    roundHalfEven n d ≤ roundHalfEven n' d' := by
  rw [← roundHalfEven_mul_left hd' n d, ← roundHalfEven_mul_left hd n' d', Nat.mul_comm d' d,
    Nat.mul_comm d' n, Nat.mul_comm d n']
  exact roundHalfEven_le_of_le h (d * d')

/-! ## Dropped bits -/

/-- The whole units in a quotient. -/
def wholeUnits (n d : Nat) : Nat := n * 2 ^ (1074 : Nat) / d

/-- How many bits of a quotient are dropped. -/
def dropped (n d : Nat) : Nat := (wholeUnits n d).log2 - 52

/-- What is left of a quotient without the bits that are dropped, rounded. -/
def significand (n d : Nat) : Nat :=
  roundHalfEven (n * 2 ^ (1074 : Nat)) (d * 2 ^ dropped n d)

theorem nearestCode_eq (n d : Nat) :
    nearestCode n d = dropped n d * 2 ^ (52 : Nat) + significand n d := by
  unfold nearestCode significand dropped wholeUnits
  rfl

theorem div_eq_wholeUnits_div (n d count : Nat) :
    n * 2 ^ (1074 : Nat) / (d * 2 ^ count) = wholeUnits n d / 2 ^ count := by
  rw [← Nat.div_div_eq_div_mul, wholeUnits]

theorem significand_le (n d : Nat) : significand n d ≤ 2 ^ (53 : Nat) := by
  have hlog : (wholeUnits n d).log2 + 1 ≤ 53 + dropped n d := by
    unfold dropped
    omega
  have hlt : wholeUnits n d < 2 ^ (53 : Nat) * 2 ^ dropped n d := by
    rw [← Nat.pow_add]
    exact Nat.lt_of_lt_of_le Nat.lt_log2_self (Nat.pow_le_pow_right (by decide) hlog)
  have hfloor : wholeUnits n d / 2 ^ dropped n d < 2 ^ (53 : Nat) :=
    Nat.div_lt_of_lt_mul (by rwa [Nat.mul_comm])
  rw [← div_eq_wholeUnits_div] at hfloor
  exact Nat.le_trans (roundHalfEven_le_succ _ _) hfloor

theorem le_wholeUnits (h : 0 < dropped n d) : 2 ^ (52 : Nat) * 2 ^ dropped n d ≤ wholeUnits n d := by
  have hlog : (wholeUnits n d).log2 = 52 + dropped n d := by
    unfold dropped at h ⊢
    omega
  have hne : wholeUnits n d ≠ 0 := by
    intro hzero
    rw [hzero, Nat.log2_zero] at hlog
    omega
  rw [← Nat.pow_add, ← hlog]
  exact Nat.log2_self_le hne

theorem le_significand (h : 0 < dropped n d) : 2 ^ (52 : Nat) ≤ significand n d := by
  have hfloor : 2 ^ (52 : Nat) ≤ wholeUnits n d / 2 ^ dropped n d :=
    (Nat.le_div_iff_mul_le (Nat.two_pow_pos _)).2 (le_wholeUnits h)
  rw [← div_eq_wholeUnits_div] at hfloor
  exact Nat.le_trans hfloor (div_le_roundHalfEven _ _)

/-! ## Order -/

theorem nearestCode_mul_left (hk : 0 < k) (n d : Nat) : nearestCode (k * n) (k * d) = nearestCode n d := by
  simp only [nearestCode, Nat.mul_assoc, Nat.mul_div_mul_left _ _ hk, roundHalfEven_mul_left hk]

/-- Equal quotients have the same code. -/
theorem nearestCode_congr (hd : 0 < d) (hd' : 0 < d') (h : n * d' = n' * d) :
    nearestCode n d = nearestCode n' d' := by
  calc nearestCode n d = nearestCode (d' * n) (d' * d) := (nearestCode_mul_left hd' n d).symm
    _ = nearestCode (d * n') (d * d') := by rw [Nat.mul_comm d' n, h, Nat.mul_comm n' d, Nat.mul_comm d' d]
    _ = nearestCode n' d' := nearestCode_mul_left hd n' d'

theorem wholeUnits_mono (hd : 0 < d) (hd' : 0 < d') (h : n * d' ≤ n' * d) :
    wholeUnits n d ≤ wholeUnits n' d' := by
  have hcommon : n * 2 ^ (1074 : Nat) * d' ≤ n' * 2 ^ (1074 : Nat) * d := by
    rw [Nat.mul_right_comm, Nat.mul_right_comm n']
    exact Nat.mul_le_mul_right _ h
  calc wholeUnits n d = n * 2 ^ (1074 : Nat) * d' / (d * d') := (Nat.mul_div_mul_right _ _ hd').symm
    _ ≤ n' * 2 ^ (1074 : Nat) * d / (d * d') := Nat.div_le_div_right hcommon
    _ = n' * 2 ^ (1074 : Nat) * d / (d' * d) := by rw [Nat.mul_comm d d']
    _ = wholeUnits n' d' := Nat.mul_div_mul_right _ _ hd

theorem log2_le_log2 {m m' : Nat} (h : m ≤ m') : m.log2 ≤ m'.log2 := by
  rcases Nat.eq_zero_or_pos m with rfl | hpos
  · exact Nat.zero_le _
  · exact (Nat.le_log2 (by omega)).2 (Nat.le_trans (Nat.log2_self_le (by omega)) h)

theorem dropped_mono (hd : 0 < d) (hd' : 0 < d') (h : n * d' ≤ n' * d) :
    dropped n d ≤ dropped n' d' :=
  Nat.sub_le_sub_right (log2_le_log2 (wholeUnits_mono hd hd' h)) 52

/-- Of two quotients, the greater one has the greater code, or they have the same. -/
theorem nearestCode_mono (hd : 0 < d) (hd' : 0 < d') (h : n * d' ≤ n' * d) :
    nearestCode n d ≤ nearestCode n' d' := by
  have hscaled : n * 2 ^ (1074 : Nat) * d' ≤ n' * 2 ^ (1074 : Nat) * d := by
    rw [Nat.mul_right_comm, Nat.mul_right_comm n']
    exact Nat.mul_le_mul_right _ h
  rw [nearestCode_eq, nearestCode_eq]
  rcases Nat.lt_or_eq_of_le (dropped_mono hd hd' h) with hlt | heq
  · have hle := significand_le n d
    have hge : 2 ^ (52 : Nat) ≤ significand n' d' := le_significand (by omega)
    omega
  · have hsignificand : significand n d ≤ significand n' d' := by
      have hpos := Nat.two_pow_pos (dropped n' d')
      unfold significand
      rw [heq]
      refine roundHalfEven_mono (Nat.mul_pos hd hpos) (Nat.mul_pos hd' hpos) ?_
      rw [← Nat.mul_assoc, ← Nat.mul_assoc]
      exact Nat.mul_le_mul_right _ hscaled
    rw [heq]
    exact Nat.add_le_add_left hsignificand _

/-! ## Magnitudes -/

/-- A magnitude is a significand and a number of bits, and the number of units in it does without those
bits. -/
theorem exists_parts (code : Nat) :
    ∃ f e, units code = f * 2 ^ e ∧ e * 2 ^ (52 : Nat) + f = code ∧ (units code).log2 - 52 = e := by
  rcases Nat.lt_or_ge code (2 ^ (53 : Nat)) with hlt | hge
  · refine ⟨code, 0, by rw [units_of_lt hlt]; simp, by simp, ?_⟩
    rw [units_of_lt hlt]
    rcases Nat.eq_zero_or_pos code with rfl | hpos
    · rw [Nat.log2_zero]
    · have hlog : code.log2 < 53 := (Nat.log2_lt (by omega)).2 hlt
      omega
  · -- the fraction field with its hidden bit, and the exponent field less one
    have hunits : units code = (2 ^ (52 : Nat) + code % 2 ^ (52 : Nat)) * 2 ^ (code / 2 ^ (52 : Nat) - 1) := by
      rw [units, if_neg (by omega)]
    have hmod : code % 2 ^ (52 : Nat) < 2 ^ (52 : Nat) := Nat.mod_lt _ (by decide)
    have hlow : 2 ^ (52 + (code / 2 ^ (52 : Nat) - 1)) ≤ units code := by
      rw [hunits, Nat.pow_add]
      exact Nat.mul_le_mul_right _ (Nat.le_add_right _ _)
    have hhigh : units code < 2 ^ (52 + (code / 2 ^ (52 : Nat) - 1) + 1) := by
      rw [hunits, Nat.add_right_comm, Nat.pow_add]
      exact Nat.mul_lt_mul_of_pos_right (by omega) (Nat.two_pow_pos _)
    have hlog : (units code).log2 = 52 + (code / 2 ^ (52 : Nat) - 1) := by
      have hpos := Nat.lt_of_lt_of_le (Nat.two_pow_pos _) hlow
      exact (Nat.log2_eq_iff (by omega)).2 ⟨hlow, hhigh⟩
    refine ⟨_, _, hunits, ?_, by omega⟩
    have hdiv := Nat.div_add_mod code (2 ^ (52 : Nat))
    omega

theorem roundHalfEven_mul_self (hd : 0 < d) (n : Nat) : roundHalfEven (n * d) d = n := by
  simp [roundHalfEven, Nat.mul_div_cancel _ hd, hd]

/-- The code of a magnitude is the magnitude. -/
theorem nearestCode_units (code : Nat) : nearestCode (units code) (2 ^ (1074 : Nat)) = code := by
  obtain ⟨f, e, hunits, hcode, hlog⟩ := exists_parts code
  have hpos : 0 < 2 ^ (1074 : Nat) := Nat.two_pow_pos (1074 : Nat)
  have hdropped : dropped (units code) (2 ^ (1074 : Nat)) = e := by
    rw [dropped, wholeUnits, Nat.mul_div_cancel _ hpos, hlog]
  have hsignificand : significand (units code) (2 ^ (1074 : Nat)) = f := by
    rw [significand, hdropped, hunits, Nat.mul_assoc, Nat.mul_comm (2 ^ e)]
    exact roundHalfEven_mul_self (Nat.mul_pos hpos (Nat.two_pow_pos e)) f
  rw [nearestCode_eq, hdropped, hsignificand, hcode]

theorem nearestCode_zero (hd : 0 < d) : nearestCode 0 d = 0 := by
  have hone : nearestCode 0 1 = 0 := by decide +kernel
  have hcross : 0 * 1 = 0 * d := by rw [Nat.zero_mul, Nat.zero_mul]
  rw [nearestCode_congr hd Nat.one_pos hcross, hone]

end LoxSyntax.Number
