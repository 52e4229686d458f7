/-
# LoxSyntax.Proofs.Number.Reading -- the text of a number is read back as the number

`Decimal.ofText?` reads digits, a point with digits behind it, and a power of ten. What it makes of a text
depends on where the digits end, so the text is met part by part: the digits up to the point, those behind
it (`fractionAt`), and the power (`withPower?`).

A decimal written with an exponent is read back as itself (`ofText?_scientific`), and one written without
an exponent is read back as a decimal of the same double (`exists_ofText?_of_denotes`). So the text of a
magnitude settles the magnitude (`exists_ofText?_write`). No decimal is read from a text with a character
in it that numbers are not written with (`isNumberChar_of_ofText?`).
-/
import LoxSyntax.Proofs.Number.Numeral
import Mathlib.Data.List.TakeWhile

namespace LoxSyntax.Number

variable {whole fraction rest text : List Char} {base d : Decimal} {x : Double}

namespace Decimal

/-! ## Parts -/

/-- The text goes on neither with a digit nor with a point. -/
def EndsNumeral (text : List Char) : Prop := ∀ c ∈ text.head?, isDigit c = false ∧ c ≠ '.'

/-- The digits behind a point, if there is one, and what follows them. -/
def fractionAt : List Char → List Char × List Char
  | '.' :: more => (more.takeWhile isDigit, more.dropWhile isDigit)
  | rest => ([], rest)

/-- Reads the power of ten, if there is one, behind the digits of a decimal. -/
def withPower? (whole : List Char) (base : Decimal) : List Char → Option Decimal
  | [] => if whole = [] then none else some base
  | 'e' :: sign :: power =>
    if whole = [] ∨ power = [] ∨ !power.all isDigit then none
    else if sign = '+' then some ⟨base.coefficient, base.exponent + digitsValue power⟩
    else if sign = '-' then some ⟨base.coefficient, base.exponent - digitsValue power⟩
    else none
  | _ => none

theorem ofText?_eq (text : List Char) :
    ofText? text =
      let whole := text.takeWhile isDigit
      let fraction := fractionAt (text.dropWhile isDigit)
      withPower? whole (ofNumeral whole fraction.1) fraction.2 :=
  rfl

theorem takeWhile_digits_append (h : whole.all isDigit = true) (rest : List Char) :
    (whole ++ rest).takeWhile isDigit = whole ++ rest.takeWhile isDigit :=
  List.takeWhile_append_of_pos (List.all_eq_true.1 h)

theorem dropWhile_digits_append (h : whole.all isDigit = true) (rest : List Char) :
    (whole ++ rest).dropWhile isDigit = rest.dropWhile isDigit :=
  List.dropWhile_append_of_pos (List.all_eq_true.1 h)

theorem EndsNumeral.takeWhile_append (hend : EndsNumeral rest) (h : whole.all isDigit = true) :
    (whole ++ rest).takeWhile isDigit = whole := by
  rw [takeWhile_digits_append h]
  cases rest with
  | nil => exact List.append_nil _
  | cons c rest => rw [List.takeWhile_cons_of_neg (by simp [(hend c rfl).1]), List.append_nil]

theorem EndsNumeral.dropWhile_append (hend : EndsNumeral rest) (h : whole.all isDigit = true) :
    (whole ++ rest).dropWhile isDigit = rest := by
  rw [dropWhile_digits_append h]
  cases rest with
  | nil => rfl
  | cons c rest => exact List.dropWhile_cons_of_neg (by simp [(hend c rfl).1])

theorem EndsNumeral.fractionAt_eq (hend : EndsNumeral rest) : fractionAt rest = ([], rest) := by
  unfold fractionAt
  split
  · next more => exact absurd rfl (hend '.' rfl).2
  · rfl

theorem ofText?_whole (h : whole.all isDigit = true) (hend : EndsNumeral rest) :
    ofText? (whole ++ rest) = withPower? whole (ofNumeral whole []) rest := by
  simp only [ofText?_eq, hend.takeWhile_append h, hend.dropWhile_append h, hend.fractionAt_eq]

theorem ofText?_fraction (h : whole.all isDigit = true) (h' : fraction.all isDigit = true)
    (hend : EndsNumeral rest) :
    ofText? (whole ++ '.' :: (fraction ++ rest)) = withPower? whole (ofNumeral whole fraction) rest := by
  have htake : (whole ++ '.' :: (fraction ++ rest)).takeWhile isDigit = whole := by
    rw [takeWhile_digits_append h, List.takeWhile_cons_of_neg (by decide), List.append_nil]
  have hdrop : (whole ++ '.' :: (fraction ++ rest)).dropWhile isDigit = '.' :: (fraction ++ rest) := by
    rw [dropWhile_digits_append h, List.dropWhile_cons_of_neg (by decide)]
  simp only [ofText?_eq, htake, hdrop, fractionAt, hend.takeWhile_append h', hend.dropWhile_append h']

/-! ## Decimals with an exponent -/

/-- The digits of a power of ten, filled up to a width. -/
def powerDigits (width : Nat) (power : Int) : List Char :=
  List.replicate (width - (Nat.toDigits 10 power.natAbs).length) '0' ++ Nat.toDigits 10 power.natAbs

/-- A power of ten as it is written behind digits. -/
def powerText (width : Nat) (power : Int) : List Char :=
  'e' :: (if power < 0 then '-' else '+') :: powerDigits width power

theorem powerDigits_ne_nil (width : Nat) (power : Int) : powerDigits width power ≠ [] :=
  List.append_ne_nil_of_right_ne_nil _ (List.ne_nil_of_length_pos Nat.length_toDigits_pos)

theorem all_isDigit_powerDigits (width : Nat) (power : Int) : (powerDigits width power).all isDigit = true := by
  rw [powerDigits, List.all_append, all_isDigit_zeros, Bool.true_and]
  exact all_isDigit_digits ⟨power.natAbs, 0⟩

theorem digitsValue_powerDigits (width : Nat) (power : Int) :
    digitsValue (powerDigits width power) = power.natAbs := by
  rw [powerDigits, digitsValue_zeros_append]
  exact digitsValue_digits ⟨power.natAbs, 0⟩

theorem endsNumeral_powerText (width : Nat) (power : Int) : EndsNumeral (powerText width power) := by
  rintro c ⟨⟩
  decide

theorem withPower?_powerText (h : whole ≠ []) (width : Nat) (power : Int) :
    withPower? whole base (powerText width power) = some ⟨base.coefficient, base.exponent + power⟩ := by
  have hread : ¬(whole = [] ∨ powerDigits width power = [] ∨ !(powerDigits width power).all isDigit) := by
    simp [h, powerDigits_ne_nil, all_isDigit_powerDigits]
  rcases Int.lt_or_le power 0 with hneg | hpos
  · have hexponent : base.exponent - (power.natAbs : Int) = base.exponent + power := by omega
    rw [powerText, if_pos hneg, withPower?, if_neg hread, if_neg (by decide), if_pos rfl,
      digitsValue_powerDigits, hexponent]
  · have hexponent : base.exponent + (power.natAbs : Int) = base.exponent + power := by omega
    rw [powerText, if_neg (Int.not_lt.2 hpos), withPower?, if_neg hread, if_pos rfl, digitsValue_powerDigits,
      hexponent]

/-- Digits with the point behind the first one; a single digit stands without a point. -/
def mantissa : List Char → List Char
  | first :: second :: more => first :: '.' :: second :: more
  | digits => digits

theorem toList_scientific (layout : Layout) (digits : List Char) (point : Int) :
    (layout.scientific digits point).toList =
      mantissa digits ++ powerText layout.exponentWidth (point - 1) := by
  have hsign : point - 1 < 0 ↔ point < 1 := by omega
  rcases digits with _ | ⟨first, _ | ⟨second, more⟩⟩ <;>
    simp [Layout.scientific, mantissa, powerText, powerDigits, hsign]

/-- With the point behind the first digit, the digits are still those of the coefficient. -/
theorem ofNumeral_digits {first : Char} {others : List Char} (h : d.digits = first :: others) :
    ofNumeral [first] others = ⟨d.coefficient, -(others.length : Int)⟩ := by
  rw [ofNumeral, List.singleton_append, ← h, d.digitsValue_digits]

/-- A decimal written with an exponent is read back as the decimal. -/
theorem ofText?_scientific (layout : Layout) (d : Decimal) :
    ofText? (layout.scientific d.digits d.point).toList = some d := by
  obtain ⟨first, others, hdigits⟩ := List.exists_cons_of_ne_nil (List.ne_nil_of_length_pos d.length_digits_pos)
  have hall : (first :: others).all isDigit = true := hdigits ▸ d.all_isDigit_digits
  rw [List.all_cons, Bool.and_eq_true] at hall
  have hfirst : [first].all isDigit = true := by simp [hall.1]
  have hexponent : -(others.length : Int) + (d.point - 1) = d.exponent := by
    rw [point, hdigits, List.length_cons]
    omega
  have hread : withPower? [first] (ofNumeral [first] others)
      (powerText layout.exponentWidth (d.point - 1)) = some d := by
    rw [withPower?_powerText (List.cons_ne_nil _ _), ofNumeral_digits hdigits, hexponent]
  rw [toList_scientific, hdigits]
  cases others with
  | nil => exact (ofText?_whole hfirst (endsNumeral_powerText _ _)).trans hread
  | cons second more => exact (ofText?_fraction hfirst hall.2 (endsNumeral_powerText _ _)).trans hread

/-! ## Numbers -/

theorem endsNumeral_nil : EndsNumeral [] := by
  rintro c ⟨⟩

/-- A numeral is read back as a decimal of the number that it denotes. -/
theorem exists_ofText?_of_denotes (h : Denotes text x) : ∃ d, ofText? text = some d ∧ d.toDouble = x := by
  cases h with
  | whole hne hall =>
      refine ⟨_, ?_, rfl⟩
      have hread := ofText?_whole hall endsNumeral_nil
      rw [List.append_nil] at hread
      rw [hread, withPower?, if_neg hne]
  | fraction hne hall _ hall' =>
      refine ⟨_, ?_, rfl⟩
      have hread := ofText?_fraction hall hall' endsNumeral_nil
      rw [List.append_nil] at hread
      rw [hread, withPower?, if_neg hne]

theorem exists_ofText?_writeDecimal (d : Decimal) :
    ∃ read, ofText? (Layout.display.writeDecimal d).toList = some read ∧ read.toDouble = d.toDouble := by
  unfold Layout.writeDecimal
  split
  · exact exists_ofText?_of_denotes (denotes_positional d)
  · exact ⟨d, ofText?_scientific _ d, rfl⟩

/-- The text of a magnitude is read back as a decimal of the magnitude. -/
theorem exists_ofText?_write (magnitude : Fin topCode) :
    ∃ d, ofText? (Layout.display.write (.finite false magnitude)).toList = some d ∧
      d.toDouble = .finite false magnitude := by
  obtain ⟨d, hread, hdouble⟩ := exists_ofText?_writeDecimal (shown magnitude.val)
  exact ⟨d, by rw [write_finite, hread], by rw [hdouble, toDouble_shown]⟩

/-! ## Numbers that are no numerals -/

/-- A decimal with its point behind the first digit, or not far from there, is that of a numeral. -/
theorem isNumeral_toDouble (h : 0 < d.coefficient) (hlow : -5 ≤ d.point) (hhigh : d.point ≤ 20) :
    d.toDouble.IsNumeral := by
  have hle : nearestCode 1 (10 ^ (6 : Nat)) ≤ d.code := by
    rw [← code_millionth]
    exact le_code_of_lt_point h (Int.lt_of_lt_of_le (by decide) hlow)
  have hlt : d.code < nearestCode (10 ^ (21 : Nat)) 1 :=
    Nat.lt_of_le_of_lt (code_le_of_point_le hhigh) (by decide +kernel)
  have htop : nearestCode (10 ^ (21 : Nat)) 1 < topCode := by decide +kernel
  rw [toDouble_eq, Double.ofCode_of_lt false (Nat.lt_trans hlt htop)]
  exact .inr ⟨hle, hlt⟩

/-- The digits of a decimal with the point behind the first one denote a number of their own. -/
theorem denotes_mantissa (d : Decimal) :
    ∃ base : Decimal, Denotes (mantissa d.digits) base.toDouble ∧ base.coefficient = d.coefficient ∧
      base.point = 1 := by
  obtain ⟨first, others, hdigits⟩ := List.exists_cons_of_ne_nil (List.ne_nil_of_length_pos d.length_digits_pos)
  have hall : (first :: others).all isDigit = true := hdigits ▸ d.all_isDigit_digits
  rw [List.all_cons, Bool.and_eq_true] at hall
  have hfirst : [first].all isDigit = true := by simp [hall.1]
  refine ⟨ofNumeral [first] others, ?_, ?_, ?_⟩
  · rw [hdigits]
    cases others with
    | nil => exact .whole (List.cons_ne_nil _ _) hfirst
    | cons second more => exact .fraction (List.cons_ne_nil _ _) hfirst (List.cons_ne_nil _ _) hall.2
  · rw [ofNumeral_digits hdigits]
  · have hbase : (ofNumeral [first] others).point = -(others.length : Int) + d.digits.length := by
      rw [ofNumeral_digits hdigits]
      rfl
    rw [hbase, hdigits, List.length_cons]
    omega

/-- A magnitude that is no numeral is displayed by the numeral of another one, with a power of ten behind. -/
theorem exists_numeral_of_not_isNumeral {magnitude : Fin topCode}
    (h : ¬(Double.finite false magnitude).IsNumeral) :
    ∃ numeral power y, (Layout.display.write (.finite false magnitude)).toList = numeral ++ powerText 1 power ∧
      Denotes numeral y ∧ y.IsNumeral := by
  have hrange : ¬(-5 ≤ (shown magnitude.val).point ∧ (shown magnitude.val).point ≤ 21) :=
    fun hpoint => h ((point_shown_iff _).1 hpoint)
  have hpos : 0 < magnitude.val := Nat.pos_of_ne_zero fun hzero => h (.inl hzero)
  have hcoefficient : 0 < (shown magnitude.val).coefficient := coefficient_pos_of_code (by rwa [code_shown])
  have hscientific : Layout.display.writeDecimal (shown magnitude.val) = _ := if_neg hrange
  obtain ⟨base, hdenotes, hbase, hpoint⟩ := denotes_mantissa (shown magnitude.val)
  refine ⟨_, (shown magnitude.val).point - 1, _, ?_, hdenotes, isNumeral_toDouble ?_ ?_ ?_⟩
  · rw [write_finite, hscientific]
    exact toList_scientific _ _ _
  · rwa [hbase]
  · rw [hpoint]
    decide
  · rw [hpoint]
    decide

/-! ## Characters -/

/-- The characters that numbers are written with. -/
def IsNumberChar (c : Char) : Prop := isDigit c = true ∨ c ∈ ['.', 'e', '+', '-']

theorem withPower?_of_nil (base : Decimal) (rest : List Char) : withPower? [] base rest = none := by
  unfold withPower?
  split <;> simp

/-- A text that starts with no digit is not read. -/
theorem ofText?_of_not_isDigit {c : Char} (h : isDigit c = false) (rest : List Char) :
    ofText? (c :: rest) = none := by
  have htake : (c :: rest).takeWhile isDigit = [] := List.takeWhile_cons_of_neg (by simp [h])
  simp only [ofText?_eq, htake]
  exact withPower?_of_nil _ _

theorem isNumberChar_of_mem_takeWhile {c : Char} (h : c ∈ text.takeWhile isDigit) : IsNumberChar c :=
  .inl (List.mem_takeWhile_imp h)

theorem isNumberChar_of_withPower? (h : withPower? whole base rest = some d) :
    ∀ c ∈ rest, IsNumberChar c := by
  unfold withPower? at h
  split at h
  · simp
  · next sign power =>
      split at h
      · cases h
      · next hguard =>
          have hdigits : ∀ c ∈ power, IsNumberChar c := by
            intro c hc
            have hall : power.all isDigit = true := by simpa using (not_or.1 (not_or.1 hguard).2).2
            exact .inl (List.all_eq_true.1 hall c hc)
          have hsign : IsNumberChar sign := by
            split at h
            · next hplus => exact .inr (by simp [hplus])
            · split at h
              · next hminus => exact .inr (by simp [hminus])
              · cases h
          intro c hc
          rcases List.mem_cons.1 hc with rfl | hc
          · exact .inr (by decide)
          · rcases List.mem_cons.1 hc with rfl | hc
            · exact hsign
            · exact hdigits c hc
  · cases h

theorem mem_of_mem_fractionAt {c : Char} (h : c ∈ text) :
    IsNumberChar c ∨ c ∈ (fractionAt text).2 := by
  unfold fractionAt
  split
  · next more =>
      rcases List.mem_cons.1 h with rfl | hmore
      · exact .inl (.inr (by decide))
      · rw [← List.takeWhile_append_dropWhile (p := isDigit) (l := more), List.mem_append] at hmore
        exact hmore.imp isNumberChar_of_mem_takeWhile id
  · exact .inr h

/-- Every character of a text that is read is one that numbers are written with. -/
theorem isNumberChar_of_ofText? (h : ofText? text = some d) : ∀ c ∈ text, IsNumberChar c := by
  intro c hc
  rw [ofText?_eq] at h
  rw [← List.takeWhile_append_dropWhile (p := isDigit) (l := text), List.mem_append] at hc
  rcases hc with hdigit | hrest
  · exact isNumberChar_of_mem_takeWhile hdigit
  · exact (mem_of_mem_fractionAt hrest).elim id (isNumberChar_of_withPower? h c)

end Decimal

end LoxSyntax.Number
