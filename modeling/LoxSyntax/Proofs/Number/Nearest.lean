/-
# LoxSyntax.Proofs.Number.Nearest -- rounding finds the nearest magnitude, and there is one

`RoundsTo` says what the code nearest to a quotient is, and `nearestCode` computes it (`roundsTo_iff`).

The quotient loses the bits that `dropped` counts, and what is left is rounded to a whole number. The
magnitudes are multiples of the same power of two from there on, so none of them is nearer; those below
that are no such multiples are too small to be near at all (`exists_multiple_or_lt`). No other code is
nearest as well: two that are equally near are both even, and then the code between them is nearer.

The last section says how far apart magnitudes are. Each is less than `2 ^ 53` times as large as its
distance from the next one, and from there on they are multiples of that distance.
-/
import LoxSyntax.Number.Nearest
import LoxSyntax.Proofs.Number.Rounding

namespace LoxSyntax.Number

-- powers, and the types of their exponents, are the same whatever else is imported
attribute [local instance (high)] instPowNat

variable {n d e f j c c' : Nat}

/-! ## Magnitudes in order -/

/-- A significand and a number of bits make a magnitude, also where the significand carries over. -/
theorem units_eq (hf : f ≤ 2 ^ (53 : Nat)) (h : e = 0 ∨ 2 ^ (52 : Nat) ≤ f) :
    units (e * 2 ^ (52 : Nat) + f) = f * 2 ^ e := by
  rcases Nat.lt_or_ge (e * 2 ^ (52 : Nat) + f) (2 ^ (53 : Nat)) with hlt | hge
  · obtain rfl : e = 0 := by omega
    rw [units_of_lt hlt]
    omega
  · rw [units, if_neg (by omega)]
    rcases Nat.lt_or_eq_of_le hf with hf | rfl
    · have hmod : (e * 2 ^ (52 : Nat) + f) % 2 ^ (52 : Nat) = f - 2 ^ (52 : Nat) := by omega
      have hdiv : (e * 2 ^ (52 : Nat) + f) / 2 ^ (52 : Nat) - 1 = e := by omega
      have hsum : 2 ^ (52 : Nat) + (f - 2 ^ (52 : Nat)) = f := by omega
      rw [hmod, hdiv, hsum]
    · have hmod : (e * 2 ^ (52 : Nat) + 2 ^ (53 : Nat)) % 2 ^ (52 : Nat) = 0 := by omega
      have hdiv : (e * 2 ^ (52 : Nat) + 2 ^ (53 : Nat)) / 2 ^ (52 : Nat) - 1 = e + 1 := by omega
      rw [hmod, hdiv, Nat.add_zero, ← Nat.pow_add, ← Nat.pow_add]
      exact congrArg (2 ^ ·) (by omega)

/-- Greater codes are greater magnitudes. -/
theorem units_lt_units (h : c < c') : units c < units c' := by
  refine Nat.not_le.1 fun hle => ?_
  have hmono := nearestCode_mono (Nat.two_pow_pos (1074 : Nat)) (Nat.two_pow_pos (1074 : Nat))
    (Nat.mul_le_mul_right _ hle)
  rw [nearestCode_units, nearestCode_units] at hmono
  omega

theorem units_le_units (h : c ≤ c') : units c ≤ units c' := by
  rcases Nat.lt_or_eq_of_le h with hlt | rfl
  · exact Nat.le_of_lt (units_lt_units hlt)
  · exact Nat.le_refl _

theorem units_injective (h : units c = units c') : c = c' := by
  rcases Nat.lt_trichotomy c c' with hlt | rfl | hlt
  · exact absurd h (Nat.ne_of_lt (units_lt_units hlt))
  · rfl
  · exact absurd h.symm (Nat.ne_of_lt (units_lt_units hlt))

/-- Whatever power of two, up to `2 ^ 53` of it are a magnitude. -/
theorem exists_units_eq (hf : f ≤ 2 ^ (53 : Nat)) (e : Nat) : ∃ c, units c = f * 2 ^ e := by
  induction e generalizing f with
  | zero => exact ⟨_, units_eq hf (.inl rfl)⟩
  | succ e ih =>
      rcases Nat.lt_or_ge f (2 ^ (52 : Nat)) with hlt | hge
      · obtain ⟨c, hc⟩ := ih (f := 2 * f) (by omega)
        refine ⟨c, ?_⟩
        rw [hc, Nat.pow_succ, Nat.mul_comm 2 f, Nat.mul_assoc, Nat.mul_comm 2]
      · exact ⟨_, units_eq hf (.inr hge)⟩

/-- A magnitude is a multiple of a power of two, or it is small. -/
theorem exists_multiple_or_lt (c e : Nat) :
    (∃ j, units c = j * 2 ^ e) ∨ (0 < e ∧ units c < 2 ^ (52 : Nat) * 2 ^ e) := by
  obtain ⟨f, e', hunits, -, hlog⟩ := exists_parts c
  rcases Nat.lt_or_ge e' e with hlt | hge
  · refine .inr ⟨by omega, ?_⟩
    rw [← Nat.pow_add]
    exact Nat.lt_of_lt_of_le Nat.lt_log2_self (Nat.pow_le_pow_right (by decide) (by omega))
  · refine .inl ⟨f * 2 ^ (e' - e), ?_⟩
    rw [hunits, Nat.mul_assoc, ← Nat.pow_add, Nat.sub_add_cancel hge]

/-! ## Rounding to whole numbers -/

/-- How far apart two naturals are. -/
def gap (a b : Nat) : Nat := max a b - min a b

theorem gap_lt_gap {a b : Nat} (h : a < b) (h' : b ≤ n) : gap b n < gap a n := by
  unfold gap
  omega

/-- Between two naturals that are equally far from a third, each is nearer to it. -/
theorem gap_lt_gap_of_between {a b b' : Nat} (h : a < b) (h' : b < b') (hsame : gap b' n = gap a n) :
    gap b n < gap a n := by
  unfold gap at *
  omega

theorem distance_eq (n d c : Nat) : distance n d c = gap (units c * d) (n * 2 ^ (1074 : Nat)) := rfl

/-- The multiples of a number are two neighbours, and those further down or further up. -/
theorem multiples (j q d : Nat) :
    j * d + d ≤ q * d ∨ j = q ∨ j = q + 1 ∨ q * d + 2 * d ≤ j * d := by
  rcases Nat.lt_trichotomy j q with hlt | rfl | hlt
  · have hle := Nat.mul_le_mul_right d hlt
    rw [Nat.succ_mul] at hle
    exact .inl hle
  · exact .inr (.inl rfl)
  · rcases Nat.lt_or_eq_of_le hlt with hlt | rfl
    · have hle := Nat.mul_le_mul_right d hlt
      rw [Nat.succ_mul, Nat.succ_mul] at hle
      exact .inr (.inr (.inr (by omega)))
    · exact .inr (.inr (.inl rfl))

/-- No whole number is nearer to a quotient than the one it is rounded to, and that one is even if another
is as near. -/
theorem roundHalfEven_nearest (hd : 0 < d) (n j : Nat) :
    gap (roundHalfEven n d * d) n ≤ gap (j * d) n ∧
      (gap (j * d) n = gap (roundHalfEven n d * d) n → j = roundHalfEven n d ∨ roundHalfEven n d % 2 = 0) := by
  have hn : n / d * d + n % d = n := by rw [Nat.mul_comm]; exact Nat.div_add_mod n d
  have hmod : n % d < d := Nat.mod_lt n hd
  have hj := multiples j (n / d) d
  have hsucc : (n / d + 1) * d = n / d * d + d := Nat.succ_mul _ _
  have hround : (roundHalfEven n d = n / d ∧ 2 * (n % d) < d) ∨
      (roundHalfEven n d = n / d + 1 ∧ d < 2 * (n % d)) ∨
      ((roundHalfEven n d = n / d ∨ roundHalfEven n d = n / d + 1) ∧ 2 * (n % d) = d ∧
        roundHalfEven n d % 2 = 0) := by
    unfold roundHalfEven
    dsimp only
    split
    · exact .inl ⟨rfl, by omega⟩
    · split
      · exact .inr (.inl ⟨rfl, by omega⟩)
      · exact .inr (.inr ⟨by omega, by omega, by omega⟩)
  generalize roundHalfEven n d = rounded at hround ⊢
  generalize n / d = floor at *
  generalize n % d = rest at *
  unfold gap
  rcases hround with ⟨rfl, hrest⟩ | ⟨rfl, hrest⟩ | ⟨hrounded, hrest, heven⟩
  · rcases hj with hj | rfl | rfl | hj <;> omega
  · rcases hj with hj | rfl | rfl | hj <;> omega
  · refine ⟨?_, fun _ => .inr heven⟩
    rcases hrounded with rfl | rfl <;> rcases hj with hj | rfl | rfl | hj <;> omega

/-! ## The nearest code -/

theorem units_nearestCode (n d : Nat) : units (nearestCode n d) = significand n d * 2 ^ dropped n d := by
  rw [nearestCode_eq]
  refine units_eq (significand_le n d) ?_
  rcases Nat.eq_zero_or_pos (dropped n d) with hzero | hpos
  · exact .inl hzero
  · exact .inr (le_significand hpos)

theorem distance_of_units_eq (h : units c = j * 2 ^ e) (n d : Nat) :
    distance n d c = gap (j * (d * 2 ^ e)) (n * 2 ^ (1074 : Nat)) := by
  rw [distance_eq, h, Nat.mul_assoc, Nat.mul_comm (2 ^ e)]

/-- Of the magnitudes that are multiples of what is dropped, none is nearer than the computed one. -/
theorem distance_nearestCode_le (hd : 0 < d) (h : units c = j * 2 ^ dropped n d) :
    distance n d (nearestCode n d) ≤ distance n d c ∧
      (distance n d c = distance n d (nearestCode n d) → j = significand n d ∨ significand n d % 2 = 0) := by
  rw [distance_of_units_eq (units_nearestCode n d), distance_of_units_eq h]
  exact roundHalfEven_nearest (Nat.mul_pos hd (Nat.two_pow_pos _)) _ j

/-- A magnitude too small to be such a multiple is further away than the least one of its size. -/
theorem distance_nearestCode_lt (hd : 0 < d) (he : 0 < dropped n d)
    (hlt : units c < 2 ^ (52 : Nat) * 2 ^ dropped n d) : distance n d (nearestCode n d) < distance n d c := by
  have hwhole : 2 ^ (52 : Nat) * 2 ^ dropped n d ≤ n * 2 ^ (1074 : Nat) / d := le_wholeUnits he
  have hscaled : 2 ^ (52 : Nat) * 2 ^ dropped n d * d ≤ n * 2 ^ (1074 : Nat) := (Nat.le_div_iff_mul_le hd).1 hwhole
  have hless : units c * d < 2 ^ (52 : Nat) * 2 ^ dropped n d * d := Nat.mul_lt_mul_of_pos_right hlt hd
  obtain ⟨least, hleast⟩ := exists_units_eq (f := 2 ^ (52 : Nat)) (by decide) (dropped n d)
  refine Nat.lt_of_le_of_lt (distance_nearestCode_le hd hleast).1 ?_
  rw [distance_eq, distance_eq, hleast]
  exact gap_lt_gap hless hscaled

/-- The code that is computed is nearest, and even if another is as near. -/
theorem roundsTo_nearestCode (hd : 0 < d) (n : Nat) : RoundsTo n d (nearestCode n d) := by
  constructor
  · intro other
    rcases exists_multiple_or_lt other (dropped n d) with ⟨j, hj⟩ | ⟨he, hlt⟩
    · exact (distance_nearestCode_le hd hj).1
    · exact Nat.le_of_lt (distance_nearestCode_lt hd he hlt)
  · intro other hsame
    rcases exists_multiple_or_lt other (dropped n d) with ⟨j, hj⟩ | ⟨he, hlt⟩
    · rcases (distance_nearestCode_le hd hj).2 hsame with rfl | heven
      · exact .inl (units_injective (hj.trans (units_nearestCode n d).symm))
      · refine .inr ?_
        rw [nearestCode_eq]
        omega
    · exact absurd hsame (Nat.ne_of_gt (distance_nearestCode_lt hd he hlt))

/-- Between two magnitudes that are equally near to a quotient, each is nearer. -/
theorem distance_lt_of_between {c'' : Nat} (hd : 0 < d) (h : c < c') (h' : c' < c'')
    (hsame : distance n d c'' = distance n d c) : distance n d c' < distance n d c := by
  have hlow : units c * d < units c' * d := Nat.mul_lt_mul_of_pos_right (units_lt_units h) hd
  have hhigh : units c' * d < units c'' * d := Nat.mul_lt_mul_of_pos_right (units_lt_units h') hd
  exact gap_lt_gap_of_between hlow hhigh hsame

theorem RoundsTo.not_lt (hd : 0 < d) (h : RoundsTo n d c) (h' : RoundsTo n d c') : ¬ c < c' := by
  intro hlt
  have hsame : distance n d c' = distance n d c := Nat.le_antisymm (h'.nearest c) (h.nearest c')
  -- both are even, so there is a code between them
  have heven : c % 2 = 0 := (h.even c' hsame).resolve_left (by omega)
  have heven' : c' % 2 = 0 := (h'.even c hsame.symm).resolve_left (by omega)
  have hbetween := distance_lt_of_between hd (Nat.lt_succ_self c) (by omega : c + 1 < c') hsame
  exact absurd (h.nearest (c + 1)) (Nat.not_le.2 hbetween)

/-- A quotient rounds to one code only. -/
theorem RoundsTo.unique (hd : 0 < d) (h : RoundsTo n d c) (h' : RoundsTo n d c') : c = c' :=
  Nat.le_antisymm (Nat.not_lt.1 (h'.not_lt hd h)) (Nat.not_lt.1 (h.not_lt hd h'))

/-- What the nearest code is, and how it is computed. -/
theorem roundsTo_iff (hd : 0 < d) : RoundsTo n d c ↔ nearestCode n d = c := by
  constructor
  · intro h
    exact (roundsTo_nearestCode hd n).unique hd h
  · rintro rfl
    exact roundsTo_nearestCode hd n

/-! ## How far apart magnitudes are -/

/-- A magnitude is less than `2 ^ 53` times as large as its distance from the next one. -/
theorem units_lt_mul_gap (c : Nat) : units c < 2 ^ (53 : Nat) * (units (c + 1) - units c) := by
  obtain ⟨f, e, hunits, hcode, hlog⟩ := exists_parts c
  have hlt : f < 2 ^ (53 : Nat) := by
    refine Nat.lt_of_mul_lt_mul_right (a := 2 ^ e) ?_
    rw [← hunits, ← Nat.pow_add]
    exact Nat.lt_of_lt_of_le Nat.lt_log2_self (Nat.pow_le_pow_right (by decide) (by omega))
  have hfits : e = 0 ∨ 2 ^ (52 : Nat) ≤ f + 1 := by
    rcases Nat.eq_zero_or_pos e with hzero | he
    · exact .inl hzero
    · refine .inr (Nat.le_succ_of_le (Nat.le_of_mul_le_mul_right ?_ (Nat.two_pow_pos e)))
      have hne : units c ≠ 0 := by
        intro hzero
        rw [hzero, Nat.log2_zero] at hlog
        omega
      rw [← hunits, ← Nat.pow_add]
      exact Nat.le_trans (Nat.pow_le_pow_right (by decide) (by omega)) (Nat.log2_self_le hne)
  have hnext : units (c + 1) = (f + 1) * 2 ^ e := by
    rw [← units_eq hlt hfits, ← hcode, Nat.add_assoc]
  have hgap : units (c + 1) - units c = 2 ^ e := by
    rw [hnext, hunits, Nat.succ_mul, Nat.add_sub_cancel_left]
  rw [hgap, hunits]
  exact Nat.mul_lt_mul_of_pos_right hlt (Nat.two_pow_pos e)

/-- Of two magnitudes, the greater one is less than `10 ^ 16` times as large as their distance. -/
theorem units_lt_mul_sub (h : c < c') : units c' < 10 ^ (16 : Nat) * (units c' - units c) := by
  have hgap := units_lt_mul_gap c
  have hstep := units_lt_units (Nat.lt_succ_self c)
  have hrest : units (c + 1) ≤ units c' := units_le_units h
  omega

/-- A magnitude that is not small is a multiple of a power of two. -/
theorem exists_multiple_of_le (h : 2 ^ (52 : Nat) * 2 ^ e ≤ units c) : ∃ j, units c = j * 2 ^ e := by
  rcases exists_multiple_or_lt c e with hmultiple | ⟨-, hlt⟩
  · exact hmultiple
  · exact absurd h (Nat.not_le.2 hlt)

end LoxSyntax.Number
