/-
# LoxSyntax.Proofs.Token.Debug -- the debugging form settles a token

The four fields of a token stand in its debugging form with a comma behind each but the last. A quoted text may
hold commas, and whatever looks like another field, but where it ends can be told from the front
(`Text.quoted_append_inj`). No other field has a comma in it: neither the name of a kind, nor the form of a value
that is no text, which holds no quote either. So the first character of a value says whether it is a text, and
the comma that ends it is found one way or the other (`Value.literal_append_inj`).

Within a field nothing is lost. The values that are no texts are read back from their forms
(`Value.ofUnquoted?_literal`): nil and the truth values from words of their own, which no number is written with,
and a number as the double that it is, with its sign.
-/
import LoxSyntax.Proofs.Number.Literal
import LoxSyntax.Proofs.Session.Listing
import LoxSyntax.Proofs.Text.Quoted

namespace LoxSyntax

open Number (Decimal Double Layout)

-- the members of a list are looked at one by one, not all characters there are
attribute [local instance (high)] List.decidableBAll

variable {rest rest' : List Char}

/-! ## Values -/

namespace Value

variable {v w : Value}

/-- The value is no text. -/
def IsUnquoted (v : Value) : Prop := ∀ s, v ≠ .text s

/-- Reads a value that is no text from its debugging form. -/
def ofUnquoted? (text : List Char) : Option Value :=
  if text = "None".toList then some .nil
  else if text = "True".toList then some (.bool true)
  else if text = "False".toList then some (.bool false)
  else (Double.ofLiteral? text).map .number

theorem ofUnquoted?_write (x : Double) : ofUnquoted? (Layout.literal.write x).toList = some (.number x) := by
  have hwords : ∀ word ∈ ["None".toList, "True".toList, "False".toList],
      (Layout.literal.write x).toList ≠ word := by
    intro word hword heq
    have hnone : ∀ word ∈ ["None".toList, "True".toList, "False".toList], Double.ofLiteral? word = none := by decide
    have hread := Double.ofLiteral?_write x
    rw [heq, hnone word hword] at hread
    cases hread
  simp only [List.forall_mem_cons] at hwords
  obtain ⟨hnil, htrue, hfalse, -⟩ := hwords
  rw [ofUnquoted?, if_neg hnil, if_neg htrue, if_neg hfalse, Double.ofLiteral?_write]
  rfl

/-- A value that is no text is read back from its debugging form. -/
theorem ofUnquoted?_literal (h : v.IsUnquoted) : ofUnquoted? v.literal.toList = some v := by
  rcases v with _ | (_ | _) | x | s
  · decide
  · decide
  · decide
  · exact ofUnquoted?_write x
  · exact absurd rfl (h s)

/-- The characters that tell where a field ends or starts. -/
def marks : List Char := [',', Text.singleQuote, Text.doubleQuote]

theorem not_mem_literal (h : v.IsUnquoted) {c : Char} (hc : c ∈ marks) : c ∉ v.literal.toList := by
  rcases v with _ | (_ | _) | x | s
  · have hall : ∀ c ∈ marks, c ∉ (literal .nil).toList := by decide
    exact hall c hc
  · have hall : ∀ c ∈ marks, c ∉ (literal (.bool false)).toList := by decide
    exact hall c hc
  · have hall : ∀ c ∈ marks, c ∉ (literal (.bool true)).toList := by decide
    exact hall c hc
  · intro hmem
    have hall : ∀ c ∈ marks, ¬(Decimal.IsNumberChar c ∨ c ∈ Layout.literal.nan.toList ∨
        c ∈ Layout.literal.infinity.toList) := by
      unfold Decimal.IsNumberChar
      decide
    exact hall c hc (Double.mem_write hmem)
  · exact absurd rfl (h s)

/-- No value that is no text starts as a text does. -/
theorem literal_append_ne_quoted (h : v.IsUnquoted) (s : String) :
    v.literal.toList ++ ',' :: rest ≠ (Text.quoted s).toList ++ rest' := by
  intro heq
  have hquote : Text.quoteFor s.toList ∈ marks := List.mem_cons_of_mem _ (Text.quoteFor_mem_quotes s.toList)
  rw [Text.toList_quoted, List.cons_append] at heq
  cases hliteral : v.literal.toList with
  | nil =>
      rw [hliteral, List.nil_append] at heq
      have hcomma : ∀ quote ∈ Text.quotes, ',' ≠ quote := by decide
      exact hcomma _ (Text.quoteFor_mem_quotes s.toList) (List.cons.inj heq).1
  | cons first others =>
      rw [hliteral] at heq
      apply not_mem_literal h hquote
      rw [hliteral, ← (List.cons.inj heq).1]
      exact List.mem_cons_self

/-- A value is settled by its debugging form, and the comma that ends it is found. -/
theorem literal_append_inj (heq : v.literal.toList ++ ',' :: rest = w.literal.toList ++ ',' :: rest') :
    v = w ∧ rest = rest' := by
  by_cases hv : v.IsUnquoted
  · by_cases hw : w.IsUnquoted
    · have hcomma : ',' ∈ marks := by decide
      obtain ⟨hliteral, hrest⟩ := Text.append_cons_inj (not_mem_literal hv hcomma) (not_mem_literal hw hcomma) heq
      have hread := ofUnquoted?_literal hv
      rw [hliteral, ofUnquoted?_literal hw] at hread
      exact ⟨(Option.some.inj hread).symm, hrest⟩
    · obtain ⟨t, rfl⟩ := not_forall_not.1 hw
      exact absurd heq (literal_append_ne_quoted hv t)
  · obtain ⟨s, rfl⟩ := not_forall_not.1 hv
    by_cases hw : w.IsUnquoted
    · exact absurd heq.symm (literal_append_ne_quoted hw s)
    · obtain ⟨t, rfl⟩ := not_forall_not.1 hw
      obtain ⟨rfl, hrest⟩ := Text.quoted_append_inj heq
      exact ⟨rfl, (List.cons.inj hrest).2⟩

end Value

/-! ## Tokens -/

theorem Kind.comma_not_mem_name (kind : Kind) : ',' ∉ kind.name.toList := by
  have hall : ∀ kind ∈ all, ',' ∉ kind.name.toList := by decide
  exact hall kind kind.mem_all

namespace Token

/-- A token field by field, with what stands between the fields. -/
theorem toList_debug (t : Token) : t.debug.toList =
    "Token(".toList ++ (t.kind.name.toList ++ ',' :: ' ' :: ((Text.quoted t.lexeme).toList ++
      ',' :: ' ' :: (t.literal.literal.toList ++ ',' :: ' ' :: ((toString t.line).toList ++ [')'])))) := by
  simp [debug]

/-- The debugging form is unambiguous: tokens that have the same form have the same kind, the same lexeme, the
same value and the same line, whatever characters the lexeme holds, and the text that the value may be. The zeros
have forms of their own, as have nil, the truth values, the numbers and the texts that look like one of them. -/
theorem debug_eq_iff (s t : Token) :
    s.debug = t.debug ↔ s.kind = t.kind ∧ s.lexeme = t.lexeme ∧ s.literal = t.literal ∧ s.line = t.line := by
  constructor
  · intro h
    have hfields := congrArg String.toList h
    rw [toList_debug, toList_debug] at hfields
    replace hfields := List.append_cancel_left hfields
    obtain ⟨hname, hbehind⟩ := Text.append_cons_inj s.kind.comma_not_mem_name t.kind.comma_not_mem_name hfields
    obtain ⟨hlexeme, hbehind⟩ := Text.quoted_append_inj (List.cons.inj hbehind).2
    obtain ⟨hliteral, hbehind⟩ := Value.literal_append_inj (List.cons.inj (List.cons.inj hbehind).2).2
    have hline := List.append_cancel_right (List.cons.inj hbehind).2
    rw [String.toList_inj] at hname hline
    rw [Int.toString_eq_repr, Int.toString_eq_repr] at hline
    exact ⟨Kind.name_injective hname, hlexeme, hliteral, Int.repr_injective hline⟩
  · rintro ⟨hkind, hlexeme, hliteral, hline⟩
    rw [debug, debug, hkind, hlexeme, hliteral, hline]

end Token

end LoxSyntax
