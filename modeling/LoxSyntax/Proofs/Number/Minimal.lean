/-
# LoxSyntax.Proofs.Number.Minimal -- the decimal of a magnitude is the shortest, and the nearest of those

The search for the decimal of a magnitude goes through the numbers of digits upwards and stops at the first
that will do (`exists_withDigits?_shortest`). A decimal with fewer digits that reads back would have been
found before, and one with as many is not nearer, so what is found is shortest (`isShortest_trim_shortest`).
It has seventeen digits at most.

The digits that are found can be one too many, for the neighbour above a magnitude can be the next power of
ten. Trimming takes the zeros off again.
-/
import LoxSyntax.Proofs.Number.Grid

namespace LoxSyntax.Number.Decimal

-- powers, and the types of their exponents, are the same whatever else is imported
attribute [local instance (high)] instPowNat

variable {d other : Decimal} {magnitude count : Nat}

theorem readsBack_iff : d.ReadsBack magnitude ↔ d.code = magnitude := roundsTo_iff d.denominator_pos

/-! ## Trimming -/

theorem value_trim (d : Decimal) : d.trim.value = d.value := by
  fun_induction trim d with
  | case1 d h ih =>
      have hten : d.coefficient = d.coefficient / 10 * 10 := by omega
      rw [ih, value, value, zpow_add₀ (by norm_num), zpow_one]
      nth_rewrite 2 [hten]
      push_cast
      ring
  | case2 d _ => rfl

theorem trim_spec (h : 0 < d.coefficient) :
    0 < d.trim.coefficient ∧ d.trim.coefficient ≤ d.coefficient ∧ d.trim.coefficient % 10 ≠ 0 := by
  fun_induction trim d with
  | case1 d hzero ih =>
      obtain ⟨hpos, hle, hlast⟩ := ih (by omega : 0 < d.coefficient / 10)
      exact ⟨hpos, by dsimp only at hle; omega, hlast⟩
  | case2 d hzero => exact ⟨h, Nat.le_refl _, fun hlast => hzero ⟨h, hlast⟩⟩

/-- A power of ten is trimmed to one digit. -/
theorem coefficient_trim_of_eq_ten_pow {zeros : ℕ} (h : d.coefficient = 10 ^ zeros) : d.trim.coefficient = 1 := by
  induction zeros generalizing d with
  | zero =>
      unfold trim
      rw [if_neg (by simp [h]), h, Nat.pow_zero]
  | succ zeros ih =>
      have hpos : 0 < 10 ^ zeros := Nat.pow_pos (by decide)
      rw [Nat.pow_succ] at h
      have hdiv : d.coefficient / 10 = 10 ^ zeros := by omega
      unfold trim
      rw [if_pos (by omega)]
      exact ih hdiv

/-- Trimmed, a decimal that reaches the next power of ten needs no digit more. -/
theorem coefficient_trim_lt (hpos : 0 < d.coefficient) (hcount : 0 < count) (h : d.coefficient ≤ 10 ^ count) :
    d.trim.coefficient < 10 ^ count := by
  rcases Nat.lt_or_eq_of_le h with hlt | heq
  · exact Nat.lt_of_le_of_lt (trim_spec hpos).2.1 hlt
  · rw [coefficient_trim_of_eq_ten_pow heq]
    exact Nat.one_lt_pow hcount.ne' (by decide)

/-! ## The search -/

/-- The decimal of a magnitude is found for a number of digits, and for no less. -/
theorem exists_withDigits?_shortest (hmagnitude : 0 < magnitude) :
    ∃ count, 0 < count ∧ count ≤ 17 ∧ withDigits? magnitude count = some (shortest magnitude) ∧
      ∀ fewer, 0 < fewer → fewer < count → withDigits? magnitude fewer = none := by
  cases hfind : (List.range' 1 17).findSome? (withDigits? magnitude) with
  | none =>
      obtain ⟨d, hd⟩ := exists_withDigits?_seventeen hmagnitude
      have hnone := List.findSome?_eq_none_iff.1 hfind 17 (by decide)
      rw [hd] at hnone
      cases hnone
  | some d =>
      have hshortest : shortest magnitude = d := by rw [shortest, hfind]; rfl
      obtain ⟨before, count, after, hsplit, hcount, hbefore⟩ := List.findSome?_eq_some_iff.1 hfind
      obtain ⟨tried, htried, rfl, hrest⟩ := List.range'_eq_append_iff.1 hsplit
      obtain ⟨hfirst, hmore, -⟩ := List.range'_eq_cons_iff.1 hrest.symm
      rw [hshortest]
      refine ⟨count, by omega, by omega, hcount, fun fewer hpos hless => hbefore fewer ?_⟩
      rw [List.mem_range'_1]
      omega

/-- The decimal of a magnitude, without zeros at its end, reads back as the magnitude; no decimal that
reads back has fewer digits, none with as many is nearer, and seventeen digits are enough. -/
theorem isShortest_trim_shortest (hmagnitude : 0 < magnitude) :
    IsShortest magnitude (shortest magnitude).trim ∧ digitCount (shortest magnitude).trim.coefficient ≤ 17 := by
  obtain ⟨count, hcount, hseventeen, hfound, hfewer⟩ := exists_withDigits?_shortest hmagnitude
  have hcode : (shortest magnitude).code = magnitude := code_shortest magnitude
  -- nothing else matters of how it was found
  generalize shortest magnitude = found at *
  have hpos : 0 < found.coefficient := coefficient_pos_of_code (by rwa [hcode])
  have hlast := (trim_spec hpos).2.2
  -- the digits that are left are no more than those that were looked for
  have hdigits : digitCount found.trim.coefficient ≤ count :=
    (digitCount_le_iff hcount).2
      (coefficient_trim_lt hpos hcount (coefficient_le_of_withDigits? hmagnitude hcount hfound))
  -- with fewer digits than that, a decimal that reads back would have been found
  have hleast : ∀ other : Decimal, other.ReadsBack magnitude → count ≤ digitCount other.coefficient := by
    intro other hread
    refine Nat.not_lt.1 fun hless => ?_
    obtain ⟨d, hd, -⟩ := exists_withDigits? hmagnitude (digitCount_pos _) (lt_ten_pow_digitCount _)
      (readsBack_iff.1 hread)
    rw [hfewer _ (digitCount_pos _) hless] at hd
    cases hd
  have hread : found.trim.ReadsBack magnitude := readsBack_iff.2 (by rw [code_trim, hcode])
  refine ⟨⟨hread, hlast, ?_, ?_⟩, hdigits.trans hseventeen⟩
  · intro other hother
    exact hdigits.trans (hleast other hother)
  · intro other hother hsame
    have hall : other.coefficient < 10 ^ count := by
      rw [← digitCount_le_iff hcount, hsame]
      exact hdigits
    obtain ⟨d, hd, hnear⟩ := exists_withDigits? hmagnitude hcount hall (readsBack_iff.1 hother)
    obtain rfl : found = d := Option.some.inj (hfound.symm.trans hd)
    rw [asNear_iff, value_trim]
    exact hnear

end LoxSyntax.Number.Decimal
