/-
# LoxSyntax.Proofs.Number.Numeral -- numbers that are displayed as numerals

A text DENOTES a number if it is a numeral and its digits read back as the number: digits with a point
between them, or without a point if no digits would stand behind it. Wherever the point of a decimal
stands, the decimal written out with its point denotes the double nearest to it (`denotes_positional`, one
case for each of the three places). So zero and the numbers between a millionth and `10 ^ 21`, which are
displayed without an exponent, are displayed as numerals that denote them (`denotes_display`).
-/
import LoxSyntax.Expr.Source
import LoxSyntax.Proofs.Number.Shortest

namespace LoxSyntax.Number

-- powers, and the types of their exponents, are the same whatever else is imported
attribute [local instance (high)] instPowNat

/-! ## Digits -/

theorem digitsValue_eq (digits : List Char) : digitsValue digits = Nat.ofDigitChars 10 digits 0 := rfl

/-- Zeros in front of digits count for nothing. -/
theorem digitsValue_zeros_append (count : Nat) (digits : List Char) :
    digitsValue (List.replicate count '0' ++ digits) = digitsValue digits := by
  rw [digitsValue_eq, digitsValue_eq, Nat.ofDigitChars_append, Nat.ofDigitChars_replicate_zero, Nat.mul_zero]

/-- Each zero behind digits multiplies their value by ten. -/
theorem digitsValue_append_zeros (digits : List Char) (count : Nat) :
    digitsValue (digits ++ List.replicate count '0') = digitsValue digits * 10 ^ count := by
  rw [digitsValue_eq, digitsValue_eq, Nat.ofDigitChars_append, Nat.ofDigitChars_replicate_zero, Nat.mul_comm]

theorem all_isDigit_zeros (count : Nat) : (List.replicate count '0').all isDigit = true :=
  List.all_eq_true.2 fun c hc => by rw [List.eq_of_mem_replicate hc]; rfl

namespace Decimal

theorem digitsValue_digits (d : Decimal) : digitsValue d.digits = d.coefficient :=
  Nat.ofDigitChars_ten_toDigits

theorem all_isDigit_digits (d : Decimal) : d.digits.all isDigit = true :=
  List.all_eq_true.2 fun _ hc => Nat.isDigit_of_mem_toDigits (by decide) (Nat.le_refl 10) hc

theorem length_digits_pos (d : Decimal) : 0 < d.digits.length := Nat.length_toDigits_pos

end Decimal

/-! ## Numerals -/

/-- A text is a numeral that reads back as a number. -/
inductive Denotes : List Char → Double → Prop where
  | whole {digits : List Char} :
      digits ≠ [] → digits.all isDigit = true → Denotes digits (Decimal.ofNumeral digits []).toDouble
  | fraction {whole fraction : List Char} :
      whole ≠ [] → whole.all isDigit = true → fraction ≠ [] → fraction.all isDigit = true →
      Denotes (whole ++ '.' :: fraction) (Decimal.ofNumeral whole fraction).toDouble

theorem Denotes.ne_nil {text : List Char} {x : Double} (h : Denotes text x) : text ≠ [] := by
  cases h with
  | whole hne _ => exact hne
  | fraction hne _ _ _ => exact List.append_ne_nil_of_left_ne_nil hne _

section Positional

variable {layout : Layout} {digits : List Char} {point : Int} {d : Decimal}

theorem toList_positional_of_nonpos (h : point ≤ 0) :
    (layout.positional digits point).toList = '0' :: '.' :: (List.replicate (-point).toNat '0' ++ digits) := by
  rw [Layout.positional, if_pos h]
  simp

theorem toList_positional_of_length_le (h : 0 < point) (hle : digits.length ≤ point.toNat) :
    (layout.positional digits point).toList =
      digits ++ List.replicate (point.toNat - digits.length) '0' ++ layout.wholeEnding.toList := by
  rw [Layout.positional, if_neg (Int.not_le.2 h), if_pos hle]
  simp

theorem toList_positional_of_lt_length (h : 0 < point) (hlt : point.toNat < digits.length) :
    (layout.positional digits point).toList = digits.take point.toNat ++ '.' :: digits.drop point.toNat := by
  rw [Layout.positional, if_neg (Int.not_le.2 h), if_neg (Nat.not_le.2 hlt)]
  simp

/-- The point stands before the first digit, with zeros between the two or without. -/
theorem denotes_positional_of_nonpos (h : d.point ≤ 0) :
    Denotes (Layout.display.positional d.digits d.point).toList d.toDouble := by
  have hlength := d.length_digits_pos
  let zeros := List.replicate (-d.point).toNat '0'
  have htext : (Layout.display.positional d.digits d.point).toList = ['0'] ++ '.' :: (zeros ++ d.digits) :=
    toList_positional_of_nonpos h
  have hvalue : digitsValue (['0'] ++ (zeros ++ d.digits)) = d.coefficient := by
    rw [← d.digitsValue_digits]
    exact digitsValue_zeros_append ((-d.point).toNat + 1) d.digits
  have hexponent : -((zeros ++ d.digits).length : Int) = d.exponent := by
    unfold Decimal.point at h
    rw [List.length_append, List.length_replicate, Decimal.point]
    omega
  have hread : Decimal.ofNumeral ['0'] (zeros ++ d.digits) = d := by
    rw [Decimal.ofNumeral, hvalue, hexponent]
  have hfraction : zeros ++ d.digits ≠ [] :=
    List.append_ne_nil_of_right_ne_nil _ (List.ne_nil_of_length_pos hlength)
  have hdigits : (zeros ++ d.digits).all isDigit = true := by
    rw [List.all_append, all_isDigit_zeros, d.all_isDigit_digits]
    rfl
  have hdenotes := Denotes.fraction (List.cons_ne_nil '0' []) rfl hfraction hdigits
  rw [hread] at hdenotes
  rwa [htext]

/-- The point stands behind the last digit, with zeros between the two or without. -/
theorem denotes_positional_of_length_le (h : 0 < d.point) (hle : d.digits.length ≤ d.point.toNat) :
    Denotes (Layout.display.positional d.digits d.point).toList d.toDouble := by
  have hlength := d.length_digits_pos
  let zeros := List.replicate (d.point.toNat - d.digits.length) '0'
  have htext : (Layout.display.positional d.digits d.point).toList = d.digits ++ zeros :=
    (toList_positional_of_length_le h hle).trans (List.append_nil _)
  have hexponent : -(([] : List Char).length : Int) + (d.point.toNat - d.digits.length : Nat) = d.exponent := by
    unfold Decimal.point at h hle ⊢
    rw [List.length_nil]
    omega
  have hread : (Decimal.ofNumeral (d.digits ++ zeros) []).toDouble = d.toDouble := by
    rw [Decimal.toDouble_eq, Decimal.ofNumeral, List.append_nil, digitsValue_append_zeros,
      d.digitsValue_digits, Decimal.code_shift, hexponent, Decimal.toDouble_eq]
  have hwhole : d.digits ++ zeros ≠ [] :=
    List.append_ne_nil_of_left_ne_nil (List.ne_nil_of_length_pos hlength) _
  have hdigits : (d.digits ++ zeros).all isDigit = true := by
    rw [List.all_append, d.all_isDigit_digits, all_isDigit_zeros]
    rfl
  have hdenotes := Denotes.whole hwhole hdigits
  rw [hread] at hdenotes
  rwa [htext]

/-- The point stands between two digits. -/
theorem denotes_positional_of_lt_length (h : 0 < d.point) (hlt : d.point.toNat < d.digits.length) :
    Denotes (Layout.display.positional d.digits d.point).toList d.toDouble := by
  let whole := d.digits.take d.point.toNat
  let fraction := d.digits.drop d.point.toNat
  have hsplit : whole ++ fraction = d.digits := List.take_append_drop _ _
  have htext : (Layout.display.positional d.digits d.point).toList = whole ++ '.' :: fraction :=
    toList_positional_of_lt_length h hlt
  have hexponent : -(fraction.length : Int) = d.exponent := by
    rw [List.length_drop]
    unfold Decimal.point at h hlt ⊢
    omega
  have hread : Decimal.ofNumeral whole fraction = d := by
    rw [Decimal.ofNumeral, hsplit, d.digitsValue_digits, hexponent]
  have hwhole : whole ≠ [] := List.ne_nil_of_length_pos (by rw [List.length_take]; omega)
  have hfraction : fraction ≠ [] := List.ne_nil_of_length_pos (by rw [List.length_drop]; omega)
  have hdigits := d.all_isDigit_digits
  rw [← hsplit, List.all_append, Bool.and_eq_true] at hdigits
  have hdenotes := Denotes.fraction hwhole hdigits.1 hfraction hdigits.2
  rw [hread] at hdenotes
  rwa [htext]

/-- A decimal written out with its point denotes the double nearest to it. -/
theorem denotes_positional (d : Decimal) :
    Denotes (Layout.display.positional d.digits d.point).toList d.toDouble := by
  rcases Int.lt_or_le 0 d.point with hpos | hnonpos
  · rcases Nat.lt_or_ge d.point.toNat d.digits.length with hlt | hle
    · exact denotes_positional_of_lt_length hpos hlt
    · exact denotes_positional_of_length_le hpos hle
  · exact denotes_positional_of_nonpos hnonpos

end Positional

/-! ## Display -/

/-- The decimal that a magnitude is displayed by. -/
def Decimal.shown (magnitude : Nat) : Decimal :=
  if magnitude = 0 then ⟨0, 0⟩ else (shortest magnitude).trim

theorem Decimal.code_shown (magnitude : Nat) : (shown magnitude).code = magnitude := by
  unfold shown
  split
  · next hzero =>
      rw [hzero]
      exact nearestCode_zero (denominator_pos _)
  · rw [code_trim, code_shortest]

theorem Decimal.toDouble_shown (magnitude : Fin topCode) :
    (shown magnitude.val).toDouble = .finite false magnitude := by
  rw [toDouble_eq, code_shown, Double.ofCode_of_lt false magnitude.isLt]

theorem write_finite (magnitude : Fin topCode) :
    Layout.display.write (.finite false magnitude) =
      Layout.display.writeDecimal (Decimal.shown magnitude.val) := by
  by_cases hzero : magnitude.val = 0 <;> simp [Layout.write, Layout.sign, Decimal.shown, hzero]

/-- Zero and the magnitudes from a millionth on and below `10 ^ 21` are those that have their point where no
exponent is needed. -/
theorem Decimal.point_shown_iff (magnitude : Nat) :
    -5 ≤ (shown magnitude).point ∧ (shown magnitude).point ≤ 21 ↔ magnitude = 0 ∨
      (nearestCode 1 (10 ^ (6 : Nat)) ≤ magnitude ∧ magnitude < nearestCode (10 ^ (21 : Nat)) 1) := by
  unfold shown
  split
  · next hzero => exact ⟨fun _ => .inl hzero, fun _ => by decide⟩
  · next hzero =>
      rw [point_shortest_iff (Nat.pos_of_ne_zero hzero)]
      exact ⟨.inr, fun h => h.resolve_left hzero⟩

/-- A numeral is a magnitude without a sign. -/
theorem Double.IsNumeral.exists_magnitude {x : Double} (h : x.IsNumeral) :
    ∃ magnitude : Fin topCode, x = .finite false magnitude ∧ (magnitude.val = 0 ∨
      (nearestCode 1 (10 ^ (6 : Nat)) ≤ magnitude.val ∧ magnitude.val < nearestCode (10 ^ (21 : Nat)) 1)) := by
  cases x with
  | nan => exact h.elim
  | infinite negative => exact h.elim
  | finite negative magnitude =>
      cases negative with
      | true => exact h.elim
      | false => exact ⟨magnitude, rfl, h⟩

/-- Zero and the numbers from a millionth on and below `10 ^ 21` are displayed as numerals that denote
them. -/
theorem denotes_display {x : Double} (h : x.IsNumeral) : Denotes (Layout.display.write x).toList x := by
  obtain ⟨magnitude, rfl, hrange⟩ := h.exists_magnitude
  have hpositional : Layout.display.writeDecimal (Decimal.shown magnitude.val) = _ :=
    if_pos ((Decimal.point_shown_iff _).2 hrange)
  rw [write_finite, hpositional, ← Decimal.toDouble_shown]
  exact denotes_positional _

end LoxSyntax.Number
