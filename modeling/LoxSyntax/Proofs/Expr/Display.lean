/-
# LoxSyntax.Proofs.Expr.Display -- values that are told by their display

`Value.ofDisplay?` reads nil, the truth values and the numbers without a sign from the texts that they are
displayed by (`ofDisplay?_write`). With a sign in front it reads nothing, so the sign can be taken off
first: `Value.ofSigned?` reads numbers of either sign.

That leaves out two numbers and every text. A zero with a sign is displayed without it, the not-a-number is
displayed by a word that is no number, and a text is displayed as it is, whatever it holds. All other
values, the PLAIN ones, are told by their display (`display_injective`), which has neither a space nor a
parenthesis in it.
-/
import LoxSyntax.Expr.Postorder
import LoxSyntax.Proofs.Number.Reading

namespace LoxSyntax

open Number (Decimal Double Layout topCode)

/-- The text has no space in it and no parenthesis. -/
def Text.IsWord (text : List Char) : Prop := ∀ c ∈ text, c ∉ [' ', '(', ')']

-- the characters of the text are looked at one by one, not all characters there are
instance Text.decidableIsWord (text : List Char) : Decidable (Text.IsWord text) :=
  List.decidableBAll (fun c => c ∉ [' ', '(', ')']) text

namespace Value

variable {value other : Value} {text : List Char} {d : Decimal}

/-- The value is nil, a truth value, or a number other than the not-a-number and a zero with a sign. -/
def IsPlain : Value → Prop
  | .nil | .bool _ => True
  | .number x => x ≠ .nan ∧ x ≠ .ofCode true 0
  | .text _ => False

/-! ## Reading -/

/-- The words that values are displayed by. -/
def displayWords : List (List Char) :=
  ["nil".toList, "true".toList, "false".toList, "Infinity".toList]

theorem ofText?_displayWords {word : List Char} (h : word ∈ displayWords) :
    Decimal.ofText? word = none := by
  have hall : ∀ word ∈ displayWords, Decimal.ofText? word = none := by decide
  exact hall word h

/-- A text that is read as a decimal is read as the number. -/
theorem ofDisplay?_of_ofText? (h : Decimal.ofText? text = some d) :
    ofDisplay? text = some (.number d.toDouble) := by
  have hword : ∀ word ∈ displayWords, text ≠ word := by
    rintro word hword rfl
    rw [ofText?_displayWords hword] at h
    cases h
  simp only [displayWords, List.forall_mem_cons] at hword
  obtain ⟨hnil, htrue, hfalse, hinfinity, -⟩ := hword
  rw [ofDisplay?, if_neg hnil, if_neg htrue, if_neg hfalse, if_neg hinfinity, h]
  rfl

theorem ofDisplay?_write (magnitude : Fin topCode) :
    ofDisplay? (Layout.display.write (.finite false magnitude)).toList =
      some (.number (.finite false magnitude)) := by
  obtain ⟨d, hread, hdouble⟩ := Decimal.exists_ofText?_write magnitude
  rw [ofDisplay?_of_ofText? hread, hdouble]

theorem ofDisplay?_minus (rest : List Char) : ofDisplay? ('-' :: rest) = none := by
  have hread : Decimal.ofText? ('-' :: rest) = none := Decimal.ofText?_of_not_isDigit (by decide) rest
  simp [ofDisplay?, hread]

/-! ## Signs -/

/-- A number with the other sign; another value as it is. -/
def negate : Value → Value
  | .number (.infinite negative) => .number (.infinite !negative)
  | .number (.finite negative magnitude) => .number (.finite (!negative) magnitude)
  | value => value

/-- Reads a value with a sign in front of it or without. -/
def ofSigned? : List Char → Option Value
  | '-' :: rest => (ofDisplay? rest).map negate
  | text => ofDisplay? text

theorem ofSigned?_of_ofDisplay? (h : ofDisplay? text = some value) : ofSigned? text = some value := by
  unfold ofSigned?
  split
  · rw [ofDisplay?_minus] at h
    cases h
  · exact h

theorem toList_display_negative {magnitude : Fin topCode} (h : magnitude.val ≠ 0) :
    (Layout.display.write (.finite true magnitude)).toList =
      '-' :: (Layout.display.write (.finite false magnitude)).toList := by
  simp [Layout.write, Layout.sign, h]

/-- A plain value is read back from its display. -/
theorem ofSigned?_display (h : value.IsPlain) : ofSigned? value.display.toList = some value := by
  rcases value with _ | (_ | _) | (_ | (_ | _) | ⟨_ | _, magnitude⟩) | _
  · decide
  · decide
  · decide
  · exact absurd rfl h.1
  · decide
  · decide
  · exact ofSigned?_of_ofDisplay? (ofDisplay?_write magnitude)
  · have hzero : magnitude.val ≠ 0 := by
      intro hzero
      refine h.2 ?_
      rw [Double.ofCode_of_lt true (by decide)]
      exact congrArg (Double.finite true) (Fin.ext hzero)
    show ofSigned? (Layout.display.write (.finite true magnitude)).toList = _
    rw [toList_display_negative hzero, ofSigned?, ofDisplay?_write]
    rfl
  · exact h.elim

/-- Plain values that are displayed alike are the same. -/
theorem display_injective (h : value.IsPlain) (h' : other.IsPlain) (heq : value.display = other.display) :
    value = other := by
  have hread := ofSigned?_display h
  rw [heq, ofSigned?_display h'] at hread
  exact (Option.some.inj hread).symm

/-! ## Characters -/

/-- A character that is in no word and in no number is in nothing that is read. -/
theorem not_mem_of_ofDisplay? {c : Char} (hwords : ∀ word ∈ displayWords, c ∉ word)
    (hnumber : ¬ Decimal.IsNumberChar c) (h : ofDisplay? text = some value) : c ∉ text := by
  by_cases hword : text ∈ displayWords
  · exact hwords text hword
  · simp only [displayWords, List.mem_cons, List.not_mem_nil, or_false, not_or] at hword
    obtain ⟨hnil, htrue, hfalse, hinfinity⟩ := hword
    rw [ofDisplay?, if_neg hnil, if_neg htrue, if_neg hfalse, if_neg hinfinity, Option.map_eq_some_iff] at h
    obtain ⟨d, hread, -⟩ := h
    intro hc
    exact hnumber (Decimal.isNumberChar_of_ofText? hread c hc)

theorem isWord_of_ofDisplay? (h : ofDisplay? text = some value) : Text.IsWord text := by
  intro c hc hbreak
  have hcases : c = ' ' ∨ c = '(' ∨ c = ')' := by simpa using hbreak
  have hnumber : ¬ Decimal.IsNumberChar c := by
    unfold Decimal.IsNumberChar
    rcases hcases with rfl | rfl | rfl <;> decide
  have hwords : ∀ word ∈ displayWords, c ∉ word := by
    rcases hcases with rfl | rfl | rfl <;> decide
  exact not_mem_of_ofDisplay? hwords hnumber h hc

/-- The display of a plain value is one word. -/
theorem isWord_display (h : value.IsPlain) : Text.IsWord value.display.toList := by
  have hread := ofSigned?_display h
  unfold ofSigned? at hread
  split at hread
  · next rest heq =>
      obtain ⟨unsigned, hrest, -⟩ := Option.map_eq_some_iff.1 hread
      rw [heq]
      intro c hc
      rcases List.mem_cons.1 hc with rfl | hc
      · decide
      · exact isWord_of_ofDisplay? hrest c hc
  · exact isWord_of_ofDisplay? hread

end Value

end LoxSyntax
