/-
# LoxSyntax.Proofs.Number.Display -- how every number is displayed

Numbers are displayed by digits and a point. Where the two stand settles which of four forms is written
(`Spells`), for every decimal (`spells_writeDecimal`). The same text comes out of the integer that a number
is, or of its debugging form with the exponent moved into the point or written anew (`respelled_eq_write`).
The branches meet without a gap:

- below `10 ^ 16` a number whose digits end before the point is an integer, so no debugging form with a point
  and a zero behind it is ever kept;
- from `10 ^ 16` on the point stands at the seventeenth place at least, and there are no more digits than
  that, so zeros can be put behind them.

So every number is displayed by the shortest digits that read back as the number (`display_number`).
-/
import LoxSyntax.Proofs.Number.Reading
import LoxSyntax.Proofs.Number.Whole
import LoxSyntax.Value

namespace LoxSyntax.Number

-- powers, and the types of their exponents, are the same whatever else is imported
attribute [local instance (high)] instPowNat

variable {d : Decimal} {digits text : List Char} {point power : Int} {magnitude whole : Nat}

/-! ## The four forms -/

/-- How digits with their point at a given position are displayed. -/
inductive Spells (digits : List Char) (point : Int) : List Char → Prop where
  /-- The point stands behind the last digit, and zeros stand in between. -/
  | padded : (digits.length : Int) ≤ point → point ≤ 21 →
      Spells digits point (digits ++ List.replicate (point - digits.length).toNat '0')
  /-- The point stands between two digits. -/
  | split {whole fraction : List Char} : digits = whole ++ fraction → (whole.length : Int) = point →
      whole ≠ [] → fraction ≠ [] → point ≤ 21 → Spells digits point (whole ++ '.' :: fraction)
  /-- The point stands before the first digit, and zeros stand in between. -/
  | leading : -6 < point → point ≤ 0 →
      Spells digits point ('0' :: '.' :: (List.replicate (-point).toNat '0' ++ digits))
  /-- The point stands too far away, and an exponent is written. -/
  | scientific : point ≤ -6 ∨ 21 < point →
      Spells digits point (Decimal.mantissa digits ++ 'e' :: withSign (point - 1))

theorem powerText_one (power : Int) : Decimal.powerText 1 power = 'e' :: withSign power := by
  have hlength : 1 - (Nat.toDigits 10 power.natAbs).length = 0 := Nat.sub_eq_zero_of_le Nat.length_toDigits_pos
  rw [Decimal.powerText, Decimal.powerDigits, hlength, List.replicate_zero, List.nil_append, withSign]

theorem toList_display_scientific (digits : List Char) (point : Int) :
    (Layout.display.scientific digits point).toList = Decimal.mantissa digits ++ 'e' :: withSign (point - 1) :=
  (Decimal.toList_scientific Layout.display digits point).trans (congrArg _ (powerText_one _))

/-- Every decimal is displayed in one of the four forms. -/
theorem spells_writeDecimal (d : Decimal) :
    Spells d.digits d.point (Layout.display.writeDecimal d).toList := by
  have hlength := d.length_digits_pos
  have hdigits : d.digits = d.digits.take d.point.toNat ++ d.digits.drop d.point.toNat :=
    (List.take_append_drop _ _).symm
  unfold Layout.writeDecimal
  split
  · next hrange =>
      obtain ⟨hlow, hhigh⟩ : -5 ≤ d.point ∧ d.point ≤ 21 := hrange
      rcases Int.lt_or_le 0 d.point with hpos | hnonpos
      · rcases Nat.lt_or_ge d.point.toNat d.digits.length with hlt | hle
        · rw [toList_positional_of_lt_length hpos hlt]
          refine .split hdigits ?_ ?_ ?_ hhigh
          · rw [List.length_take]
            omega
          · exact List.ne_nil_of_length_pos (by rw [List.length_take]; omega)
          · exact List.ne_nil_of_length_pos (by rw [List.length_drop]; omega)
        · have hzeros : d.point.toNat - d.digits.length = (d.point - d.digits.length).toNat := by omega
          rw [toList_positional_of_length_le hpos hle, hzeros]
          have hspells : Spells d.digits d.point (d.digits ++ List.replicate _ '0') :=
            .padded (by omega) hhigh
          rwa [← List.append_nil (d.digits ++ _)] at hspells
      · rw [toList_positional_of_nonpos hnonpos]
        exact .leading (by omega) hnonpos
  · next hrange =>
      have hfar : ¬(-5 ≤ d.point ∧ d.point ≤ 21) := hrange
      rw [toList_display_scientific]
      exact .scientific (by omega)

/-! ## Respelling -/

namespace Decimal

theorem head?_mantissa (digits : List Char) : (mantissa digits).head? = digits.head? := by
  rcases digits with _ | ⟨first, _ | ⟨second, more⟩⟩ <;> rfl

theorem mem_mantissa {c : Char} (h : c ∈ mantissa digits) : c ∈ digits ∨ c = '.' := by
  rcases digits with _ | ⟨first, _ | ⟨second, more⟩⟩
  · exact .inl h
  · exact .inl h
  · simp only [mantissa, List.mem_cons] at h ⊢
    tauto

theorem filter_mantissa (h : '.' ∉ digits) : (mantissa digits).filter (· ≠ '.') = digits := by
  have hall : digits.filter (· ≠ '.') = digits :=
    List.filter_eq_self.2 fun c hc => by
      simp only [decide_eq_true_eq]
      rintro rfl
      exact h hc
  rcases digits with _ | ⟨first, _ | ⟨second, more⟩⟩
  · rfl
  · exact hall
  · exact hall

end Decimal

theorem not_mem_of_all_isDigit {c : Char} (h : digits.all isDigit = true) (hc : isDigit c = false) : c ∉ digits := by
  intro hmem
  rw [List.all_eq_true.1 h c hmem] at hc
  cases hc

theorem signedValue_powerDigits (width : Nat) (power : Int) :
    signedValue ((if power < 0 then '-' else '+') :: Decimal.powerDigits width power) = power := by
  split
  · rw [signedValue, Decimal.digitsValue_powerDigits]
    omega
  · rw [signedValue, Decimal.digitsValue_powerDigits]
    omega

theorem movePoint_minus (h : text.head? ≠ some '-') (power : Int) :
    movePoint ('-' :: text) power = '-' :: movePoint text power := by
  have hdrop : ('-' :: text).dropWhile (· = '-') = text.dropWhile (· = '-') := List.dropWhile_cons_of_pos rfl
  simp only [movePoint, hdrop, List.head?_cons, if_pos, if_neg h, List.nil_append]
  split <;> rfl

/-- A minus in front stays where it is. -/
theorem respell_minus (h : text.head? ≠ some '-') : respell ('-' :: text) = '-' :: respell text := by
  have hmem : 'e' ∈ '-' :: text ↔ 'e' ∈ text := by simp
  have hmantissa : (text.takeWhile (· ≠ 'e')).head? ≠ some '-' := by
    rw [List.head?_takeWhile]
    intro hhead
    exact h (Option.filter_eq_some_iff.1 hhead).1
  have htake : ('-' :: text).takeWhile (· ≠ 'e') = '-' :: text.takeWhile (· ≠ 'e') :=
    List.takeWhile_cons_of_pos (by decide)
  have hdrop : ('-' :: text).dropWhile (· ≠ 'e') = text.dropWhile (· ≠ 'e') :=
    List.dropWhile_cons_of_pos (by decide)
  simp only [respell, hmem, htake, hdrop, movePoint_minus hmantissa]
  split
  · rfl
  · split <;> rfl

/-- A text with an exponent has the point moved, or the exponent written anew. -/
theorem respell_scientific (h : digits.all isDigit = true) (width : Nat) (power : Int) :
    respell (Decimal.mantissa digits ++ Decimal.powerText width power) =
      if -7 < power ∧ power < 21 then movePoint (Decimal.mantissa digits) power
      else Decimal.mantissa digits ++ 'e' :: withSign power := by
  have hmantissa : ∀ c ∈ Decimal.mantissa digits, decide (c ≠ 'e') = true := by
    intro c hc
    rw [decide_eq_true_eq]
    rintro rfl
    exact (Decimal.mem_mantissa hc).elim (not_mem_of_all_isDigit h (by decide)) (by decide)
  have hmem : 'e' ∈ Decimal.mantissa digits ++ Decimal.powerText width power :=
    List.mem_append_right _ List.mem_cons_self
  have htake : (Decimal.mantissa digits ++ Decimal.powerText width power).takeWhile (· ≠ 'e') =
      Decimal.mantissa digits := by
    rw [List.takeWhile_append_of_pos hmantissa, Decimal.powerText, List.takeWhile_cons_of_neg (by decide),
      List.append_nil]
  have hdrop : (Decimal.mantissa digits ++ Decimal.powerText width power).dropWhile (· ≠ 'e') =
      Decimal.powerText width power := by
    rw [List.dropWhile_append_of_pos hmantissa, Decimal.powerText, List.dropWhile_cons_of_neg (by decide)]
  have hpower : signedValue ((Decimal.powerText width power).drop 1) = power :=
    signedValue_powerDigits width power
  rw [respell, if_neg (not_not_intro hmem)]
  simp only [htake, hdrop, hpower]

theorem movePoint_mantissa (h : digits.all isDigit = true) (power : Int) :
    movePoint (Decimal.mantissa digits) power =
      if power < 0 then '0' :: '.' :: (List.replicate (-power - 1).toNat '0' ++ digits)
      else digits ++ List.replicate (power + 1 - digits.length).toNat '0' := by
  have hminus : (Decimal.mantissa digits).head? ≠ some '-' := by
    rw [Decimal.head?_mantissa]
    intro hhead
    exact not_mem_of_all_isDigit h (by decide) (List.mem_of_mem_head? hhead)
  have hdrop : (Decimal.mantissa digits).dropWhile (· = '-') = Decimal.mantissa digits := by
    cases hmantissa : Decimal.mantissa digits with
    | nil => rfl
    | cons first rest =>
        rw [hmantissa, List.head?_cons] at hminus
        exact List.dropWhile_cons_of_neg (by simpa using hminus)
  have hfilter := Decimal.filter_mantissa (not_mem_of_all_isDigit h (by decide))
  simp only [movePoint, if_neg hminus, hdrop, hfilter, List.nil_append, List.cons_append]

/-! ## The debugging form, respelled -/

theorem positional_literal (h : point ≤ 0 ∨ point.toNat < digits.length) :
    Layout.literal.positional digits point = Layout.display.positional digits point := by
  unfold Layout.positional
  rcases h with hnonpos | hlt
  · rw [if_pos hnonpos, if_pos hnonpos]
  · rw [if_neg (Nat.not_le.2 hlt), if_neg (Nat.not_le.2 hlt)]

/-- Digits with their point at a given position, filled up with zeros, are no other characters. -/
theorem not_mem_positional (h : digits.all isDigit = true) {c : Char} (hc : isDigit c = false) (hpoint : c ≠ '.') :
    c ∉ (Layout.display.positional digits point).toList := by
  have hdigits := not_mem_of_all_isDigit h hc
  have hzeros : ∀ count, c ∉ List.replicate count '0' := fun count =>
    not_mem_of_all_isDigit (all_isDigit_zeros count) hc
  have hzero : c ≠ '0' := by
    rintro rfl
    exact absurd hc (by decide)
  rcases Int.lt_or_le 0 point with hpos | hnonpos
  · rcases Nat.lt_or_ge point.toNat digits.length with hlt | hle
    · rw [toList_positional_of_lt_length hpos hlt]
      intro hmem
      rcases List.mem_append.1 hmem with hwhole | hfraction
      · exact hdigits (List.mem_of_mem_take hwhole)
      · rcases List.mem_cons.1 hfraction with hmem | hmem
        · exact hpoint hmem
        · exact hdigits (List.mem_of_mem_drop hmem)
    · rw [toList_positional_of_length_le hpos hle]
      simp [Layout.display, hdigits, hzeros]
  · rw [toList_positional_of_nonpos hnonpos]
    simp [hzero, hpoint, hzeros, hdigits]

theorem toList_sign (negative : Bool) : (Layout.sign negative).toList = if negative then ['-'] else [] := by
  cases negative <;> rfl

theorem respell_sign_append (negative : Bool) (h : text.head? ≠ some '-') :
    respell ((Layout.sign negative).toList ++ text) = (Layout.sign negative).toList ++ respell text := by
  cases negative with
  | false => rfl
  | true => exact respell_minus h

theorem writeDecimal_of_range {layout : Layout} (h : layout.leastPoint ≤ d.point ∧ d.point ≤ layout.greatestPoint) :
    layout.writeDecimal d = layout.positional d.digits d.point := if_pos h

theorem writeDecimal_of_not_range {layout : Layout}
    (h : ¬(layout.leastPoint ≤ d.point ∧ d.point ≤ layout.greatestPoint)) :
    layout.writeDecimal d = layout.scientific d.digits d.point := if_neg h

/-- A debugging form without an exponent is kept. -/
theorem respell_of_range (negative : Bool) (hrange : -3 ≤ d.point ∧ d.point ≤ 16)
    (hpoint : d.point ≤ 0 ∨ d.point.toNat < d.digits.length) :
    respell ((Layout.sign negative).toList ++ (Layout.literal.writeDecimal d).toList) =
      (Layout.sign negative).toList ++ (Layout.display.writeDecimal d).toList := by
  have hdisplay : -5 ≤ d.point ∧ d.point ≤ 21 := by omega
  have hall := d.all_isDigit_digits
  have hminus : (Layout.display.positional d.digits d.point).toList.head? ≠ some '-' := fun hhead =>
    not_mem_positional hall (by decide) (by decide) (List.mem_of_mem_head? hhead)
  rw [writeDecimal_of_range hrange, positional_literal hpoint, writeDecimal_of_range hdisplay,
    respell_sign_append negative hminus, respell, if_pos (not_mem_positional hall (by decide) (by decide))]

/-- An exponent in a debugging form is taken away, or written anew. -/
theorem respell_of_not_range (negative : Bool) (hrange : ¬(-3 ≤ d.point ∧ d.point ≤ 16))
    (hcount : d.digits.length ≤ 17) :
    respell ((Layout.sign negative).toList ++ (Layout.literal.writeDecimal d).toList) =
      (Layout.sign negative).toList ++ (Layout.display.writeDecimal d).toList := by
  have hall := d.all_isDigit_digits
  have hlength := d.length_digits_pos
  have hminus : (Decimal.mantissa d.digits ++ Decimal.powerText 2 (d.point - 1)).head? ≠ some '-' := by
    rw [List.head?_append, Decimal.head?_mantissa, List.head?_eq_some_head (List.ne_nil_of_length_pos hlength)]
    intro hhead
    exact not_mem_of_all_isDigit hall (by decide) (Option.some.inj hhead ▸ List.head_mem _)
  have htext : (Layout.literal.writeDecimal d).toList =
      Decimal.mantissa d.digits ++ Decimal.powerText 2 (d.point - 1) :=
    (congrArg String.toList (writeDecimal_of_not_range hrange)).trans (Decimal.toList_scientific _ _ _)
  rw [htext, respell_sign_append negative hminus, respell_scientific hall, movePoint_mantissa hall]
  congr 1
  by_cases hdisplay : -5 ≤ d.point ∧ d.point ≤ 21
  · rw [if_pos (by omega), writeDecimal_of_range hdisplay]
    rcases Int.lt_or_le 0 d.point with hpos | hnonpos
    · -- the point stands at the seventeenth place at least, so no digits stand behind it
      have hzeros : (d.point - 1 + 1 - d.digits.length).toNat = d.point.toNat - d.digits.length := by omega
      rw [if_neg (by omega), toList_positional_of_length_le hpos (by omega), hzeros]
      exact (List.append_nil _).symm
    · have hzeros : -(d.point - 1) - 1 = -d.point := by omega
      rw [if_pos (by omega), toList_positional_of_nonpos hnonpos, hzeros]
  · rw [if_neg (by omega), writeDecimal_of_not_range hdisplay, toList_display_scientific]

/-! ## Integers -/

theorem toDigits_mul_ten_pow {n : Nat} (h : 0 < n) (zeros : ℕ) :
    Nat.toDigits 10 (n * 10 ^ zeros) = Nat.toDigits 10 n ++ List.replicate zeros '0' := by
  induction zeros with
  | zero => rw [Nat.pow_zero, Nat.mul_one, List.replicate_zero, List.append_nil]
  | succ zeros ih =>
      have hpos : 0 < n * 10 ^ zeros := Nat.mul_pos h (Nat.pow_pos (by decide))
      have hten : n * 10 ^ (zeros + 1) = 10 * (n * 10 ^ zeros) + 0 := by
        rw [Nat.pow_succ]
        ring
      rw [hten, ← Nat.toDigits_append_toDigits (by decide) hpos (by decide), ih, List.append_assoc,
        List.replicate_succ']
      rfl

/-- A decimal that is a whole number below `10 ^ 16` is displayed as that number. -/
theorem writeDecimal_of_whole (htrimmed : d.coefficient % 10 ≠ 0) (hvalue : d.value = whole)
    (hlt : whole < 10 ^ (16 : Nat)) : (Layout.display.writeDecimal d).toList = Nat.toDigits 10 whole := by
  obtain ⟨zeros, hexponent, rfl⟩ := Decimal.exists_zeros_of_value_eq htrimmed hvalue
  have hpos : 0 < d.coefficient := by omega
  have hlength := d.length_digits_pos
  have hpoint : d.point = zeros + d.digits.length := by rw [Decimal.point, hexponent]
  have hdigits : d.digits.length - 1 + zeros < 16 := by
    refine (Nat.pow_lt_pow_iff_right (by decide : 1 < 10)).1 ?_
    rw [Nat.pow_add]
    exact Nat.lt_of_le_of_lt (Nat.mul_le_mul_right _ (d.le_coefficient hpos)) hlt
  have hzeros : d.point.toNat - d.digits.length = zeros := by omega
  have hrange : -5 ≤ d.point ∧ d.point ≤ 21 := by omega
  rw [writeDecimal_of_range hrange, toList_positional_of_length_le (by omega) (by omega), hzeros,
    toDigits_mul_ten_pow hpos]
  exact List.append_nil _

theorem toList_toString_signed (negative : Bool) (h : 0 < whole) :
    (toString (if negative then -(whole : Int) else (whole : Int))).toList =
      (Layout.sign negative).toList ++ Nat.toDigits 10 whole := by
  obtain ⟨n, rfl⟩ := Nat.exists_eq_succ_of_ne_zero h.ne'
  cases negative with
  | false => exact Nat.toList_repr
  | true => exact (String.toList_append).trans (congrArg _ Nat.toList_repr)

/-! ## Every number -/

theorem units_zero : units 0 = 0 := units_of_lt (by decide)

theorem isSmallWhole_zero : IsSmallWhole 0 :=
  isSmallWhole_of_units (units_zero.trans (Nat.zero_mul _).symm) (by decide)

/-- Neither zero shows a sign. -/
theorem display_of_zero {negative : Bool} {magnitude : Fin topCode} (h : magnitude.val = 0) :
    Layout.display.write (.finite negative magnitude) = "0" := by
  have hzero : Layout.display.write (.finite negative magnitude) =
      Layout.sign (negative && false) ++ Layout.display.writeDecimal ⟨0, 0⟩ := if_pos h
  rw [hzero, Bool.and_false]
  decide

theorem write_of_pos (layout : Layout) {negative : Bool} {magnitude : Fin topCode} (h : 0 < magnitude.val) :
    layout.write (.finite negative magnitude) =
      Layout.sign negative ++ layout.writeDecimal (Decimal.shortest magnitude.val).trim := if_neg h.ne'

/-- The integer that a double is. -/
theorem respelled_of_isSmallWhole {negative : Bool} {magnitude : Fin topCode} (h : IsSmallWhole magnitude.val) :
    respelled (.finite negative magnitude) = Layout.display.write (.finite negative magnitude) := by
  rw [respelled, if_pos h]
  dsimp only
  rcases Nat.eq_zero_or_pos magnitude.val with hzero | hpos
  · simp only [display_of_zero hzero, hzero, units_zero, Nat.zero_div]
    cases negative <;> decide
  · obtain ⟨hshortest, -⟩ := Decimal.isShortest_trim_shortest hpos
    have hvalue := value_eq_of_units h.units_eq
    have hwhole : 0 < units magnitude.val / 2 ^ (1074 : Nat) := by
      have hvaluepos := value_pos hpos
      rw [hvalue] at hvaluepos
      exact Nat.cast_pos.1 hvaluepos
    have hlt := h.2
    generalize units magnitude.val / 2 ^ (1074 : Nat) = whole at *
    have hsame := hshortest.value_eq_of_whole hvalue hwhole hlt
    rw [write_of_pos _ hpos]
    refine String.toList_injective ?_
    rw [toList_toString_signed negative hwhole, String.toList_append,
      writeDecimal_of_whole hshortest.trimmed hsame hlt]

/-- The debugging form of a double that is no integer below `10 ^ 16`, respelled. -/
theorem respelled_of_not_isSmallWhole {negative : Bool} {magnitude : Fin topCode}
    (h : ¬IsSmallWhole magnitude.val) :
    respelled (.finite negative magnitude) = Layout.display.write (.finite negative magnitude) := by
  have hpos : 0 < magnitude.val := Nat.pos_of_ne_zero fun hzero => h (hzero ▸ isSmallWhole_zero)
  obtain ⟨hshortest, hdigits⟩ := Decimal.isShortest_trim_shortest hpos
  rw [respelled, if_neg h, write_of_pos _ hpos, write_of_pos _ hpos]
  generalize (Decimal.shortest magnitude.val).trim = d at *
  rw [digitCount_eq_length_toDigits] at hdigits
  refine String.toList_injective ?_
  rw [String.toList_ofList, String.toList_append, String.toList_append]
  by_cases hrange : -3 ≤ d.point ∧ d.point ≤ 16
  · refine respell_of_range negative hrange ?_
    -- with all its digits before the point, it would be an integer
    by_contra hbefore
    have hexponent : 0 ≤ d.exponent := by
      have hpoint : d.point = d.exponent + d.digits.length := rfl
      omega
    exact h (hshortest.isSmallWhole_of_point_le hexponent hrange.2)
  · exact respell_of_not_range negative hrange hdigits

/-- A text made from the integer that a number is, or from its debugging form, is how the number is displayed. -/
theorem respelled_eq_write (x : Double) : respelled x = Layout.display.write x := by
  cases x with
  | nan => rfl
  | infinite negative => cases negative <;> decide
  | finite negative magnitude =>
      by_cases h : IsSmallWhole magnitude.val
      · exact respelled_of_isSmallWhole h
      · exact respelled_of_not_isSmallWhole h

/-- How a number is displayed. The text of a finite number other than zero consists of the shortest digits
that read back as the number, and it is read back as the number. -/
def Double.IsDisplayed : Double → String → Prop
  | .nan, text => text = "NaN"
  | .infinite negative, text => text = if negative then "-Infinity" else "Infinity"
  | .finite negative magnitude, text =>
    if magnitude.val = 0 then text = "0"
    else ∃ d unsigned, Decimal.IsShortest magnitude.val d ∧ d.digits.length ≤ 17 ∧
      Spells d.digits d.point unsigned ∧ text.toList = (if negative then '-' :: unsigned else unsigned) ∧
      ∃ read, Decimal.ofText? unsigned = some read ∧ read.ReadsBack magnitude.val

section IsDisplayed

variable {negative : Bool} {magnitude : Fin topCode} {text : String}

theorem Double.isDisplayed_of_zero (h : magnitude.val = 0) :
    (Double.finite negative magnitude).IsDisplayed text ↔ text = "0" := by
  rw [IsDisplayed, if_pos h]

theorem Double.isDisplayed_of_pos (h : 0 < magnitude.val) :
    (Double.finite negative magnitude).IsDisplayed text ↔
      ∃ d unsigned, Decimal.IsShortest magnitude.val d ∧ d.digits.length ≤ 17 ∧
        Spells d.digits d.point unsigned ∧ text.toList = (if negative then '-' :: unsigned else unsigned) ∧
        ∃ read, Decimal.ofText? unsigned = some read ∧ read.ReadsBack magnitude.val := by
  rw [IsDisplayed, if_neg h.ne']

theorem Decimal.code_of_toDouble (h : d.toDouble = .finite negative magnitude) : d.code = magnitude.val := by
  rw [toDouble_eq, Double.ofCode] at h
  split at h
  · cases h
    rfl
  · cases h

end IsDisplayed

end LoxSyntax.Number

namespace LoxSyntax.Value

open Number (Double Layout Decimal)

/-- Every number is displayed as it should be: the not-a-number and the infinities by name, both zeros alike,
and any other number by its shortest digits, at most seventeen, in the form that their point asks for. No
digit is lost or made up, for the text is read back as the number. And it is the text that comes out of the
integer that the number is, or of its debugging form. -/
theorem display_number (x : Double) :
    x.IsDisplayed (Value.number x).display ∧ (Value.number x).display = Number.respelled x := by
  refine ⟨?_, (Number.respelled_eq_write x).symm⟩
  cases x with
  | nan => rfl
  | infinite negative => cases negative <;> rfl
  | finite negative magnitude =>
      rcases Nat.eq_zero_or_pos magnitude.val with hzero | hpos
      · exact (Double.isDisplayed_of_zero hzero).2 (Number.display_of_zero hzero)
      · obtain ⟨hshortest, hdigits⟩ := Decimal.isShortest_trim_shortest hpos
        rw [Number.digitCount_eq_length_toDigits] at hdigits
        have htext : (Value.number (.finite negative magnitude)).display =
            Layout.sign negative ++ Layout.display.writeDecimal (Decimal.shortest magnitude.val).trim :=
          Number.write_of_pos Layout.display hpos
        generalize (Decimal.shortest magnitude.val).trim = d at *
        have hcode : d.toDouble = .finite false magnitude := by
          rw [Decimal.toDouble_eq, Decimal.readsBack_iff.1 hshortest.readsBack,
            Double.ofCode_of_lt false magnitude.isLt]
        obtain ⟨read, hread, hdouble⟩ := Decimal.exists_ofText?_writeDecimal d
        refine (Double.isDisplayed_of_pos hpos).2
          ⟨d, _, hshortest, hdigits, Number.spells_writeDecimal d, ?_, read, hread, ?_⟩
        · rw [htext, String.toList_append, Number.toList_sign]
          cases negative with
          | false => rw [if_neg Bool.false_ne_true, if_neg Bool.false_ne_true, List.nil_append]
          | true => rw [if_pos rfl, if_pos rfl, List.singleton_append]
        · rw [Decimal.readsBack_iff]
          exact Decimal.code_of_toDouble (hdouble.trans hcode)

end LoxSyntax.Value
