/-
# LoxSyntax.Proofs.Number.Literal -- the debugging form of a number is read back as the number

The debugging form of a finite number is a sign and a decimal, for zeros as for all others (`write_literal`). It
differs from the display where the point stands behind the last digit: a point and a zero are written there as
well, which change nothing in the number that is denoted (`Denotes.append_pointZero`). So the decimal is read
back as one of the same number, and with the words for what is no finite number, `Double.ofLiteral?` reads every
number from its debugging form.
-/
import LoxSyntax.Proofs.Number.Display

namespace LoxSyntax.Number

-- powers, and the types of their exponents, are the same whatever else is imported
attribute [local instance (high)] instPowNat

variable {x : Double} {text : List Char}

/-! ## Decimals -/

/-- A zero behind the point changes nothing. -/
theorem toDouble_ofNumeral_zero (digits : List Char) :
    (Decimal.ofNumeral digits ['0']).toDouble = (Decimal.ofNumeral digits []).toDouble := by
  have hvalue : digitsValue (digits ++ ['0']) = digitsValue digits * 10 ^ (1 : Nat) :=
    digitsValue_append_zeros digits 1
  rw [Decimal.toDouble_eq, Decimal.toDouble_eq, Decimal.ofNumeral, Decimal.ofNumeral, hvalue, Decimal.code_shift,
    List.append_nil]
  rfl

/-- Digits that denote a number denote it with a point and a zero behind them as well. -/
theorem Denotes.append_pointZero (h : Denotes text x) (hall : text.all isDigit = true) :
    Denotes (text ++ ['.', '0']) x := by
  cases h with
  | whole hne _ =>
      rw [← toDouble_ofNumeral_zero]
      exact .fraction hne hall (List.cons_ne_nil _ _) rfl
  | fraction =>
      rw [List.all_append, List.all_cons, Bool.and_eq_true, Bool.and_eq_true] at hall
      cases hall.2.1

/-- A decimal written out with its point in the debugging form denotes the double nearest to it. -/
theorem denotes_positional_literal (d : Decimal) :
    Denotes (Layout.literal.positional d.digits d.point).toList d.toDouble := by
  by_cases hpoint : d.point ≤ 0 ∨ d.point.toNat < d.digits.length
  · rw [positional_literal hpoint]
    exact denotes_positional d
  · rw [not_or, Int.not_le, Nat.not_lt] at hpoint
    let zeros := List.replicate (d.point.toNat - d.digits.length) '0'
    have hdisplay : (Layout.display.positional d.digits d.point).toList = d.digits ++ zeros :=
      (toList_positional_of_length_le hpoint.1 hpoint.2).trans (List.append_nil _)
    have hliteral : (Layout.literal.positional d.digits d.point).toList = d.digits ++ zeros ++ ['.', '0'] :=
      toList_positional_of_length_le hpoint.1 hpoint.2
    have hdigits : (d.digits ++ zeros).all isDigit = true := by
      rw [List.all_append, d.all_isDigit_digits, all_isDigit_zeros]
      rfl
    have hdenotes := denotes_positional_of_length_le hpoint.1 hpoint.2
    rw [hdisplay] at hdenotes
    rw [hliteral]
    exact hdenotes.append_pointZero hdigits

theorem exists_ofText?_writeDecimal_literal (d : Decimal) :
    ∃ read, Decimal.ofText? (Layout.literal.writeDecimal d).toList = some read ∧ read.toDouble = d.toDouble := by
  unfold Layout.writeDecimal
  split
  · exact Decimal.exists_ofText?_of_denotes (denotes_positional_literal d)
  · exact ⟨d, Decimal.ofText?_scientific _ d, rfl⟩

/-! ## Numbers -/

/-- A finite number is a sign and a decimal, zeros included. -/
theorem write_literal (negative : Bool) (magnitude : Fin topCode) :
    Layout.literal.write (.finite negative magnitude) =
      Layout.sign negative ++ Layout.literal.writeDecimal (Decimal.shown magnitude.val) := by
  by_cases hzero : magnitude.val = 0 <;> simp [Layout.write, Layout.literal, Decimal.shown, hzero]

namespace Double

/-- The number with the other sign. -/
def negate : Double → Double
  | .nan => .nan
  | .infinite negative => .infinite !negative
  | .finite negative magnitude => .finite (!negative) magnitude

/-- Reads a number without a sign from its debugging form. -/
def ofUnsigned? (text : List Char) : Option Double :=
  if text = Layout.literal.nan.toList then some .nan
  else if text = Layout.literal.infinity.toList then some (.infinite false)
  else (Decimal.ofText? text).map Decimal.toDouble

/-- Reads a number from its debugging form. -/
def ofLiteral? : List Char → Option Double
  | '-' :: rest => (ofUnsigned? rest).map negate
  | text => ofUnsigned? text

theorem ofUnsigned?_of_ofText? {d : Decimal} (h : Decimal.ofText? text = some d) :
    ofUnsigned? text = some d.toDouble := by
  have hwords : ∀ word ∈ [Layout.literal.nan.toList, Layout.literal.infinity.toList],
      Decimal.ofText? word = none := by decide
  rw [ofUnsigned?, if_neg, if_neg, h]
  · rfl
  · rintro rfl
    rw [hwords _ (by decide)] at h
    cases h
  · rintro rfl
    rw [hwords _ (by decide)] at h
    cases h

theorem ofUnsigned?_minus (rest : List Char) : ofUnsigned? ('-' :: rest) = none := by
  have hread : Decimal.ofText? ('-' :: rest) = none := Decimal.ofText?_of_not_isDigit (by decide) rest
  simp [ofUnsigned?, hread, Layout.literal]

theorem ofLiteral?_of_ofUnsigned? (h : ofUnsigned? text = some x) : ofLiteral? text = some x := by
  unfold ofLiteral?
  split
  · rw [ofUnsigned?_minus] at h
    cases h
  · exact h

/-- Every number is read back from its debugging form. -/
theorem ofLiteral?_write (x : Double) : ofLiteral? (Layout.literal.write x).toList = some x := by
  cases x with
  | nan => decide
  | infinite negative => cases negative <;> decide
  | finite negative magnitude =>
      obtain ⟨d, hread, hdouble⟩ := exists_ofText?_writeDecimal_literal (Decimal.shown magnitude.val)
      have hunsigned := ofUnsigned?_of_ofText? hread
      rw [hdouble, Decimal.toDouble_shown] at hunsigned
      rw [write_literal, String.toList_append, toList_sign]
      cases negative with
      | false => exact ofLiteral?_of_ofUnsigned? hunsigned
      | true =>
          rw [if_pos rfl, List.singleton_append, ofLiteral?, hunsigned]
          rfl

theorem isNumberChar_of_mem_sign {negative : Bool} {c : Char} (h : c ∈ (Layout.sign negative).toList) :
    Decimal.IsNumberChar c := by
  rw [toList_sign] at h
  cases negative with
  | false => cases h
  | true =>
      obtain rfl := List.mem_singleton.1 h
      exact .inr (by decide)

/-- The characters of a debugging form are those of numbers, or stand in one of the words. -/
theorem mem_write {c : Char} (h : c ∈ (Layout.literal.write x).toList) :
    Decimal.IsNumberChar c ∨ c ∈ Layout.literal.nan.toList ∨ c ∈ Layout.literal.infinity.toList := by
  cases x with
  | nan => exact .inr (.inl h)
  | infinite negative =>
      rw [Layout.write, String.toList_append, List.mem_append] at h
      rcases h with hsign | hword
      · exact .inl (isNumberChar_of_mem_sign hsign)
      · exact .inr (.inr hword)
  | finite negative magnitude =>
      obtain ⟨d, hread, -⟩ := exists_ofText?_writeDecimal_literal (Decimal.shown magnitude.val)
      rw [write_literal, String.toList_append, List.mem_append] at h
      rcases h with hsign | hdecimal
      · exact .inl (isNumberChar_of_mem_sign hsign)
      · exact .inl (Decimal.isNumberChar_of_ofText? hread c hdecimal)

end Double

end LoxSyntax.Number
