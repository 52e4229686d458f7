/-
# LoxSyntax.Proofs.Text.Quoted -- a quoted text is told from the front

A character stands inside quotes in one of three ways (`Escapes`): as it is, as a letter behind a backslash, or
as its code point behind a letter that says how many digits there are. Only an escape starts with a backslash,
and no letter has two meanings, so the first two characters say how far the escape goes, and the whole of it
says which character it stands for (`Escapes.append_inj`).

Nothing inside starts with the quote in use. So the quote that opens a text is also the first thing that can
close it, and a quoted text settles the text and where it ends (`quoted_append_inj`).
-/
import LoxSyntax.Text.Quoted

namespace LoxSyntax.Text

-- powers, and the types of their exponents, are the same whatever else is imported
attribute [local instance (high)] instPowNat

-- the members of a list are looked at one by one, not all characters there are
attribute [local instance (high)] List.decidableBAll

variable {quote c d : Char} {chars chars' text text' rest rest' : List Char} {width n : Nat}

/-! ## Hexadecimal digits -/

/-- What a hexadecimal digit counts. -/
def hexDigitValue (digit : Char) : Nat := "0123456789abcdef".toList.idxOf digit

/-- The natural that a text of hexadecimal digits denotes. -/
def hexValue (digits : List Char) : Nat :=
  digits.foldl (fun value digit => 16 * value + hexDigitValue digit) 0

theorem hexDigitValue_digitChar (h : n < 16) : hexDigitValue (Nat.digitChar n) = n := by
  have hall : ∀ n < 16, hexDigitValue (Nat.digitChar n) = n := by decide
  exact hall n h

theorem hexValue_concat (digits : List Char) (digit : Char) :
    hexValue (digits ++ [digit]) = 16 * hexValue digits + hexDigitValue digit := by
  rw [hexValue, List.foldl_append]
  rfl

theorem hexValue_toDigits (n : Nat) : hexValue (Nat.toDigits 16 n) = n := by
  induction n using Nat.strongRecOn with
  | ind n ih =>
      rw [Nat.toDigits_eq_if (by decide)]
      split
      · next hlt => simp [hexValue, hexDigitValue_digitChar hlt]
      · rw [hexValue_concat, ih (n / 16) (by omega), hexDigitValue_digitChar (Nat.mod_lt n (by decide))]
        exact Nat.div_add_mod n 16

/-- Zeros in front of digits count for nothing. -/
theorem hexValue_zeros_append (count : Nat) (digits : List Char) :
    hexValue (List.replicate count '0' ++ digits) = hexValue digits := by
  induction count with
  | zero => rfl
  | succ count ih =>
      rw [← ih]
      rfl

theorem hexValue_hexadecimal (width n : Nat) : hexValue (hexadecimal width n) = n := by
  unfold hexadecimal
  rw [hexValue_zeros_append, hexValue_toDigits]

theorem length_hexadecimal (hwidth : 0 < width) (h : n < 16 ^ width) : (hexadecimal width n).length = width := by
  have hle : (Nat.toDigits 16 n).length ≤ width := (Nat.length_toDigits_le_iff (by decide) hwidth).2 h
  unfold hexadecimal
  rw [List.length_append, List.length_replicate, Nat.sub_add_cancel hle]

/-- Code points of one width are told by their digits, whatever stands behind them. -/
theorem hexadecimal_append_inj (hwidth : 0 < width) (hc : c.toNat < 16 ^ width) (hd : d.toNat < 16 ^ width)
    (heq : hexadecimal width c.toNat ++ rest = hexadecimal width d.toNat ++ rest') : c = d ∧ rest = rest' := by
  have hlength := (length_hexadecimal hwidth hc).trans (length_hexadecimal hwidth hd).symm
  obtain ⟨hdigits, hrest⟩ := List.append_inj heq hlength
  have hvalue := congrArg hexValue hdigits
  rw [hexValue_hexadecimal, hexValue_hexadecimal] at hvalue
  exact ⟨Char.toNat_inj.1 hvalue, hrest⟩

/-! ## One character -/

/-- The characters that have a letter of their own, each behind its letter. -/
def ownLetters (quote : Char) : List (Char × Char) :=
  [(quote, quote), ('\\', '\\'), ('n', '\n'), ('r', '\r'), ('t', '\t')]

/-- The letters that digits follow, each with how many. -/
def codeLetters : List (Char × Nat) := [('x', 2), ('u', 4), ('U', 8)]

/-- How a character stands inside quotes. -/
inductive Escapes (quote : Char) : Char → List Char → Prop where
  | plain {c : Char} : c ≠ quote → c ≠ '\\' → Escapes quote c [c]
  | letter {letter c : Char} : (letter, c) ∈ ownLetters quote → Escapes quote c ['\\', letter]
  | code {letter c : Char} {width : Nat} : (letter, width) ∈ codeLetters → c.toNat < 16 ^ width →
      Escapes quote c ('\\' :: letter :: hexadecimal width c.toNat)

/-- The code point of every character has at most eight digits. -/
theorem codePoint_lt (c : Char) : c.toNat < 16 ^ (8 : Nat) := c.val.toNat_lt

theorem escapes_escapeCode (quote c : Char) : Escapes quote c ('\\' :: escapeCode c) := by
  unfold escapeCode
  split
  · next h => exact .code (by decide) h
  · split
    · next h => exact .code (by decide) h
    · exact .code (by decide) (codePoint_lt c)

theorem escapes_escape (quote c : Char) : Escapes quote c (escape quote c) := by
  unfold escape
  split
  · next h => exact .letter (by rcases h with rfl | rfl <;> simp [ownLetters])
  · next hplain =>
      rw [not_or] at hplain
      split
      · next h => exact .letter (by simp [ownLetters, h])
      · split
        · next h => exact .letter (by simp [ownLetters, h])
        · split
          · next h => exact .letter (by simp [ownLetters, h])
          · split
            · exact .plain hplain.1 hplain.2
            · exact escapes_escapeCode quote c

/-- The characters that texts are put between. -/
def quotes : List Char := [singleQuote, doubleQuote]

theorem quoteFor_mem_quotes (text : List Char) : quoteFor text ∈ quotes := by
  unfold quoteFor
  split <;> decide

theorem ne_backslash_of_mem_quotes (h : quote ∈ quotes) : quote ≠ '\\' := by
  have hall : ∀ quote ∈ quotes, quote ≠ '\\' := by decide
  exact hall quote h

/-- A letter of its own stands for one character. -/
theorem ownLetters_inj (hquote : quote ∈ quotes) {letter : Char} (hc : (letter, c) ∈ ownLetters quote)
    (hd : (letter, d) ∈ ownLetters quote) : c = d := by
  have hall : ∀ quote ∈ quotes, ∀ p ∈ ownLetters quote, ∀ q ∈ ownLetters quote,
      p.1 = q.1 → p.2 = q.2 := by decide
  exact hall quote hquote _ hc _ hd rfl

theorem codeLetters_inj {letter : Char} {width width' : Nat} (h : (letter, width) ∈ codeLetters)
    (h' : (letter, width') ∈ codeLetters) : width = width' := by
  have hall : ∀ p ∈ codeLetters, ∀ q ∈ codeLetters, p.1 = q.1 → p.2 = q.2 := by decide
  exact hall _ h _ h' rfl

theorem pos_of_mem_codeLetters {letter : Char} (h : (letter, width) ∈ codeLetters) : 0 < width := by
  have hall : ∀ p ∈ codeLetters, 0 < p.2 := by decide
  exact hall _ h

/-- No letter of its own is followed by digits. -/
theorem not_mem_codeLetters (hquote : quote ∈ quotes) {letter : Char} (hc : (letter, c) ∈ ownLetters quote) :
    (letter, width) ∉ codeLetters := by
  have hall : ∀ quote ∈ quotes, ∀ p ∈ ownLetters quote, ∀ q ∈ codeLetters, p.1 ≠ q.1 := by decide
  exact fun hcode => hall quote hquote _ hc _ hcode rfl

/-- A character is told by how it stands inside quotes, whatever stands behind it. -/
theorem Escapes.append_inj (hquote : quote ∈ quotes) (h : Escapes quote c chars) (h' : Escapes quote d chars')
    (heq : chars ++ rest = chars' ++ rest') : c = d ∧ rest = rest' := by
  cases h with
  | plain hne hbackslash =>
      cases h' with
      | plain => exact List.cons.inj heq
      | letter | code => exact absurd (List.cons.inj heq).1 hbackslash
  | letter hletter =>
      cases h' with
      | plain hne' hbackslash' => exact absurd (List.cons.inj heq).1.symm hbackslash'
      | letter hletter' =>
          obtain ⟨rfl, hrest⟩ := List.cons.inj (List.cons.inj heq).2
          exact ⟨ownLetters_inj hquote hletter hletter', hrest⟩
      | code hcode' =>
          obtain ⟨rfl, -⟩ := List.cons.inj (List.cons.inj heq).2
          exact absurd hcode' (not_mem_codeLetters hquote hletter)
  | code hcode hlt =>
      cases h' with
      | plain hne' hbackslash' => exact absurd (List.cons.inj heq).1.symm hbackslash'
      | letter hletter' =>
          obtain ⟨rfl, -⟩ := List.cons.inj (List.cons.inj heq).2
          exact absurd hcode (not_mem_codeLetters hquote hletter')
      | code hcode' hlt' =>
          obtain ⟨rfl, hdigits⟩ := List.cons.inj (List.cons.inj heq).2
          obtain rfl := codeLetters_inj hcode hcode'
          exact hexadecimal_append_inj (pos_of_mem_codeLetters hcode) hlt hlt' hdigits

/-- The quote in use closes the text, and does not stand for a character inside. -/
theorem Escapes.append_ne_quote (hquote : quote ∈ quotes) (h : Escapes quote c chars) :
    chars ++ rest ≠ quote :: rest' := by
  intro heq
  cases h with
  | plain hne => exact hne (List.cons.inj heq).1
  | letter | code => exact ne_backslash_of_mem_quotes hquote (List.cons.inj heq).1.symm

/-! ## Texts -/

/-- The inside of a quoted text settles the text, and the quote in use ends it. -/
theorem flatMap_escape_append_inj (hquote : quote ∈ quotes)
    (heq : text.flatMap (escape quote) ++ quote :: rest = text'.flatMap (escape quote) ++ quote :: rest') :
    text = text' ∧ rest = rest' := by
  induction text generalizing text' with
  | nil =>
      cases text' with
      | nil => exact ⟨rfl, (List.cons.inj heq).2⟩
      | cons d text' =>
          rw [List.flatMap_cons, List.append_assoc] at heq
          exact absurd heq.symm ((escapes_escape quote d).append_ne_quote hquote)
  | cons c text ih =>
      rw [List.flatMap_cons, List.append_assoc] at heq
      cases text' with
      | nil => exact absurd heq ((escapes_escape quote c).append_ne_quote hquote)
      | cons d text' =>
          rw [List.flatMap_cons, List.append_assoc] at heq
          obtain ⟨rfl, hbehind⟩ := (escapes_escape quote c).append_inj hquote (escapes_escape quote d) heq
          obtain ⟨rfl, hrest⟩ := ih hbehind
          exact ⟨rfl, hrest⟩

theorem toList_quoted (s : String) : (quoted s).toList =
    quoteFor s.toList :: (s.toList.flatMap (escape (quoteFor s.toList)) ++ [quoteFor s.toList]) := by
  rw [quoted, String.toList_ofList, List.cons_append]

/-- A quoted text settles the text, and where it ends, whatever stands behind it. -/
theorem quoted_append_inj {s t : String} (heq : (quoted s).toList ++ rest = (quoted t).toList ++ rest') :
    s = t ∧ rest = rest' := by
  rw [toList_quoted, toList_quoted, List.cons_append, List.cons_append, List.append_assoc, List.append_assoc] at heq
  obtain ⟨hquote, hinside⟩ := List.cons.inj heq
  rw [← hquote] at hinside
  obtain ⟨htext, hrest⟩ := flatMap_escape_append_inj (quoteFor_mem_quotes s.toList) hinside
  exact ⟨String.toList_inj.1 htext, hrest⟩

end LoxSyntax.Text
