/-
# LoxSyntax.Proofs.Number.Rounded -- a rational and the double that it is rounded to

`Double.Rounds` says which double a rational is rounded to, as a statement about rationals alone. It knows
of no quotients and no bits: below the overflow a finite double to which no finite double is nearer, an even
one where another is as near, and infinity from the overflow on. The not-a-number and the doubles with a sign
are not rounded to at all.

A quotient of naturals is rounded to `Double.ofRatio` of it and to nothing else (`rounds_iff`). Among all codes
that is what `RoundsTo` says; those past the finite ones do not matter, because below the overflow the greatest
finite double is nearer than any of them (`abs_sub_greatest_lt`), and the overflow itself is rounded away from
it. So a greater quotient is never rounded to a lesser double (`not_less_of_div_le`).
-/
import LoxSyntax.Proofs.Number.Whole

namespace LoxSyntax.Number

-- powers, and the types of their exponents, are the same whatever else is imported
attribute [local instance (high)] instPowNat

variable {n d n' d' c : Nat} {q : ℚ} {x : Double}

/-! ## What a rational is rounded to -/

/-- The least rational that is rounded to infinity. It lies halfway between the greatest finite double and
`2 ^ 1024`. -/
def overflow : ℚ := 2 ^ (1024 : ℕ) - 2 ^ (970 : ℕ)

/-- A rational is rounded to a double. -/
inductive Double.Rounds (q : ℚ) : Double → Prop where
  | finite {magnitude : Fin topCode} :
      q < overflow →
      (∀ other : Fin topCode, |q - value magnitude.val| ≤ |q - value other.val|) →
      (∀ other : Fin topCode, |q - value other.val| = |q - value magnitude.val| →
        other = magnitude ∨ magnitude.val % 2 = 0) →
      Rounds q (.finite false magnitude)
  | infinite : overflow ≤ q → Rounds q (.infinite false)

/-- The rational that a finite double is. -/
def Double.signed (negative : Bool) (magnitude : Fin topCode) : ℚ :=
  if negative then -value magnitude.val else value magnitude.val

/-- One double is less than another. The not-a-number is neither less nor greater than any. -/
def Double.Less : Double → Double → Prop
  | .finite s m, .finite t k => signed s m < signed t k
  | .finite _ _, .infinite negative => negative = false
  | .infinite negative, .finite _ _ => negative = true
  | .infinite s, .infinite t => s = true ∧ t = false
  | .nan, _ | _, .nan => False

/-! ## Distances as rationals -/

theorem distance_le_iff (hd : 0 < d) (c c' : Nat) :
    distance n d c ≤ distance n d c' ↔ |(n : ℚ) / d - value c| ≤ |(n : ℚ) / d - value c'| := by
  have hpos : (0 : ℚ) < d * 2 ^ (1074 : ℕ) := mul_pos (Nat.cast_pos.2 hd) (two_pow_pos_rat 1074)
  rw [← Nat.cast_le (α := ℚ), distance_cast hd, distance_cast hd, mul_le_mul_iff_right₀ hpos]

theorem distance_eq_iff (hd : 0 < d) (c c' : Nat) :
    distance n d c = distance n d c' ↔ |(n : ℚ) / d - value c| = |(n : ℚ) / d - value c'| := by
  rw [Nat.eq_iff_le_and_ge, distance_le_iff hd, distance_le_iff hd, ← le_antisymm_iff]

/-! ## Overflow -/

theorem value_eq_mul {e f : Nat} (hf : f ≤ 2 ^ (53 : Nat)) (h : e = 0 ∨ 2 ^ (52 : Nat) ≤ f) :
    value (e * 2 ^ (52 : Nat) + f) = f * 2 ^ e / 2 ^ (1074 : ℕ) := by
  rw [value, units_eq hf h]
  push_cast
  rfl

theorem two_pow_div_units (bits : ℕ) : (2 : ℚ) ^ (bits + 1074) / 2 ^ (1074 : ℕ) = 2 ^ bits := by
  rw [pow_add, mul_div_cancel_right₀ _ (two_pow_pos_rat 1074).ne']

theorem value_topCode : value topCode = 2 ^ (1024 : ℕ) := by
  have hcode : topCode = 2045 * 2 ^ (52 : Nat) + 2 ^ (53 : Nat) := by decide
  have hbits : (2 : ℚ) ^ (53 : ℕ) * 2 ^ (2045 : ℕ) = 2 ^ (1024 + 1074) := by rw [← pow_add]
  rw [hcode, value_eq_mul (Nat.le_refl _) (.inr (by decide)), Nat.cast_pow, Nat.cast_ofNat, hbits,
    two_pow_div_units]

/-- The greatest finite double. -/
theorem value_greatest : value (topCode - 1) = 2 ^ (1024 : ℕ) - 2 * 2 ^ (970 : ℕ) := by
  have hcode : topCode - 1 = 2045 * 2 ^ (52 : Nat) + (2 ^ (53 : Nat) - 1) := by decide
  have hbits : (2 : ℚ) ^ (2045 : ℕ) = 2 ^ (971 + 1074) := rfl
  have htop : (2 : ℚ) ^ (1024 : ℕ) = 2 ^ (53 : ℕ) * 2 ^ (971 : ℕ) := by rw [← pow_add]
  rw [hcode, value_eq_mul (Nat.sub_le _ _) (.inr (by decide)), hbits, mul_div_assoc, two_pow_div_units, htop,
    ← pow_succ' (2 : ℚ) 970]
  generalize (2 : ℚ) ^ (971 : ℕ) = half
  push_cast
  ring

theorem greatest_lt_overflow : value (topCode - 1) < overflow := by
  have hpos := two_pow_pos_rat 970
  rw [value_greatest, overflow]
  generalize (2 : ℚ) ^ (970 : ℕ) = half at *
  generalize (2 : ℚ) ^ (1024 : ℕ) = top at *
  linarith

/-- Below the overflow the greatest finite double is nearer than anything beyond it. -/
theorem abs_sub_greatest_lt (hq : q < overflow) (hc : topCode ≤ c) :
    |q - value (topCode - 1)| < |q - value c| := by
  have hbeyond : value topCode ≤ value c := value_le_value hc
  have hpos := two_pow_pos_rat 970
  rw [value_topCode] at hbeyond
  rw [value_greatest]
  rw [overflow] at hq
  generalize (2 : ℚ) ^ (970 : ℕ) = half at *
  generalize (2 : ℚ) ^ (1024 : ℕ) = top at *
  have hbelow : q < value c := by linarith
  rw [abs_of_neg (sub_neg.2 hbelow), abs_lt]
  constructor <;> linarith

/-- From the overflow on `2 ^ 1024` is at least as near as the greatest finite double. -/
theorem abs_sub_topCode_le (hq : overflow ≤ q) : |q - value topCode| ≤ |q - value (topCode - 1)| := by
  have hpos := two_pow_pos_rat 970
  have habove : value (topCode - 1) < q := greatest_lt_overflow.trans_le hq
  rw [abs_of_pos (sub_pos.2 habove), value_topCode, value_greatest, abs_le]
  rw [overflow] at hq
  generalize (2 : ℚ) ^ (970 : ℕ) = half at *
  generalize (2 : ℚ) ^ (1024 : ℕ) = top at *
  constructor <;> linarith

/-- From the overflow on, a finite code can only be as near as `2 ^ 1024` if it is the greatest one. -/
theorem eq_greatest_of_abs_le (hq : overflow ≤ q) (hc : c < topCode)
    (h : |q - value c| ≤ |q - value topCode|) : c = topCode - 1 ∧ |q - value topCode| = |q - value c| := by
  have hle : value c ≤ value (topCode - 1) := value_le_value (Nat.le_sub_one_of_lt hc)
  have habove : value (topCode - 1) < q := greatest_lt_overflow.trans_le hq
  have htop := abs_sub_topCode_le hq
  rw [abs_of_pos (sub_pos.2 habove)] at htop
  rw [abs_of_pos (sub_pos.2 (hle.trans_lt habove))] at h ⊢
  have hvalue : value c = value (topCode - 1) := by linarith
  refine ⟨?_, by linarith⟩
  apply units_injective
  have hunits := (div_left_inj' (two_pow_pos_rat 1074).ne').1 hvalue
  exact_mod_cast hunits

/-! ## Quotients -/

/-- A code is nearest to a quotient of naturals if its value is nearest to the rational. -/
theorem roundsTo_iff_abs (hd : 0 < d) :
    RoundsTo n d c ↔ (∀ other, |(n : ℚ) / d - value c| ≤ |(n : ℚ) / d - value other|) ∧
      ∀ other, |(n : ℚ) / d - value other| = |(n : ℚ) / d - value c| → other = c ∨ c % 2 = 0 := by
  constructor
  · intro h
    exact ⟨fun other => (distance_le_iff hd _ _).1 (h.nearest other),
      fun other hsame => h.even other ((distance_eq_iff hd _ _).2 hsame)⟩
  · rintro ⟨hnearest, heven⟩
    exact ⟨fun other => (distance_le_iff hd _ _).2 (hnearest other),
      fun other hsame => heven other ((distance_eq_iff hd _ _).1 hsame)⟩

/-- The code nearest to a quotient is that of no finite double exactly from the overflow on. -/
theorem topCode_le_nearestCode_iff (hd : 0 < d) : topCode ≤ nearestCode n d ↔ overflow ≤ (n : ℚ) / d := by
  obtain ⟨hnearest, heven⟩ := (roundsTo_iff_abs hd).1 (roundsTo_nearestCode hd n)
  generalize nearestCode n d = code at *
  generalize (n : ℚ) / d = q at *
  constructor
  · intro hcode
    apply not_lt.1
    intro hq
    exact absurd (hnearest (topCode - 1)) (not_le.2 (abs_sub_greatest_lt hq hcode))
  · intro hq
    apply Nat.not_lt.1
    intro hcode
    obtain ⟨hgreatest, hsame⟩ := eq_greatest_of_abs_le hq hcode (hnearest topCode)
    -- a tie goes to the even code, and the greatest one is odd
    rcases heven topCode hsame with htopCode | hparity
    · omega
    · rw [hgreatest] at hparity
      exact absurd hparity (by decide)

/-- A finite double that a quotient is rounded to is nearest to it among all codes. -/
theorem roundsTo_of_rounds {magnitude : Fin topCode} (hd : 0 < d)
    (h : Double.Rounds ((n : ℚ) / d) (.finite false magnitude)) : RoundsTo n d magnitude.val := by
  cases h with
  | finite hq hnearest heven =>
      have hbeyond : ∀ other, topCode ≤ other →
          |(n : ℚ) / d - value magnitude.val| < |(n : ℚ) / d - value other| := by
        intro other hother
        exact (hnearest ⟨topCode - 1, by decide⟩).trans_lt (abs_sub_greatest_lt hq hother)
      refine (roundsTo_iff_abs hd).2 ⟨fun other => ?_, fun other hsame => ?_⟩
      · rcases Nat.lt_or_ge other topCode with hlt | hge
        · exact hnearest ⟨other, hlt⟩
        · exact (hbeyond other hge).le
      · rcases Nat.lt_or_ge other topCode with hlt | hge
        · exact (heven ⟨other, hlt⟩ hsame).imp_left (congrArg Fin.val)
        · exact absurd hsame (hbeyond other hge).ne'

/-- A quotient of naturals is rounded to one double, the one that is computed. -/
theorem rounds_iff (hd : 0 < d) : Double.Rounds ((n : ℚ) / d) x ↔ x = Double.ofRatio n d := by
  have hoverflow := topCode_le_nearestCode_iff hd (n := n)
  constructor
  · intro h
    cases h with
    | @finite magnitude hq hnearest heven =>
        have hcode := (roundsTo_iff hd).1 (roundsTo_of_rounds hd (.finite hq hnearest heven))
        rw [Double.ofRatio, hcode, Double.ofCode_of_lt false magnitude.isLt]
    | infinite hq => rw [Double.ofRatio, Double.ofCode_of_le false (hoverflow.2 hq)]
  · rintro rfl
    rcases Nat.lt_or_ge (nearestCode n d) topCode with hlt | hge
    · obtain ⟨hnearest, heven⟩ := (roundsTo_iff_abs hd).1 (roundsTo_nearestCode hd n)
      rw [Double.ofRatio, Double.ofCode_of_lt false hlt]
      refine .finite ?_ (fun other => hnearest other.val) fun other hsame => ?_
      · exact not_le.1 fun hq => Nat.not_le.2 hlt (hoverflow.2 hq)
      · exact (heven other.val hsame).imp_left Fin.ext
    · rw [Double.ofRatio, Double.ofCode_of_le false hge]
      exact .infinite (hoverflow.1 hge)

/-! ## Order -/

theorem not_less_ofCode {code code' : Nat} (h : code ≤ code') :
    ¬ (Double.ofCode false code').Less (Double.ofCode false code) := by
  intro hless
  rcases Nat.lt_or_ge code' topCode with hlt' | hge'
  · have hlt : code < topCode := Nat.lt_of_le_of_lt h hlt'
    rw [Double.ofCode_of_lt false hlt, Double.ofCode_of_lt false hlt'] at hless
    exact absurd (value_le_value h) (not_le.2 hless)
  · rw [Double.ofCode_of_le false hge'] at hless
    rcases Nat.lt_or_ge code topCode with hlt | hge
    · rw [Double.ofCode_of_lt false hlt] at hless
      cases hless
    · rw [Double.ofCode_of_le false hge] at hless
      cases hless.1

/-- A greater quotient is never rounded to a lesser double. -/
theorem not_less_of_div_le (hd : 0 < d) (hd' : 0 < d') (h : (n : ℚ) / d ≤ (n' : ℚ) / d') :
    ¬ (Double.ofRatio n' d').Less (Double.ofRatio n d) :=
  not_less_ofCode (nearestCode_le_of_div_le hd hd' h)

end LoxSyntax.Number
