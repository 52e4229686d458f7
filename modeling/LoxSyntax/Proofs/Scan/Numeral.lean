/-
# LoxSyntax.Proofs.Scan.Numeral -- the number of a numeral is its value, correctly rounded

A numeral denotes a rational: each digit before the point counts a power of ten, and each digit behind it a
tenth, a hundredth and so on (`numeralValue`). The digits on both sides are read as one coefficient with an
exponent, which is the same rational (`value_ofNumeral`), however many digits there are.

So the literal of a number is the double that this rational is rounded to, and the lexeme it is taken from is
all of the numeral that stands at its place in the source (`number_correctly_rounded`).
-/
import LoxSyntax.Proofs.Number.Numeral
import LoxSyntax.Proofs.Number.Rounded
import LoxSyntax.Proofs.Scan.Lines

namespace LoxSyntax.Number

-- powers, and the types of their exponents, are the same whatever else is imported
attribute [local instance (high)] instPowNat

variable {digits whole fraction : List Char}

/-! ## The value of a numeral -/

/-- The number that a decimal digit stands for. -/
def digitValue (c : Char) : ℚ := (c.toNat - '0'.toNat : Nat)

/-- The value of digits before a point. -/
def wholeValue : List Char → ℚ
  | [] => 0
  | c :: rest => digitValue c * 10 ^ rest.length + wholeValue rest

/-- The value of digits behind a point. -/
def fractionValue : List Char → ℚ
  | [] => 0
  | c :: rest => (digitValue c + fractionValue rest) / 10

/-- The rational that a numeral denotes. -/
def numeralValue (text : List Char) : ℚ :=
  wholeValue (text.takeWhile (· ≠ '.')) + fractionValue ((text.dropWhile (· ≠ '.')).drop 1)

theorem cast_digitsValue (digits : List Char) : (digitsValue digits : ℚ) = wholeValue digits := by
  induction digits with
  | nil => rfl
  | cons c rest ih =>
      rw [digitsValue_eq, Nat.ofDigitChars_cons, Nat.mul_zero, Nat.zero_add, Nat.ofDigitChars_eq_ofDigitChars_zero,
        ← digitsValue_eq, wholeValue, ← ih, digitValue]
      push_cast
      ring

theorem wholeValue_append (whole fraction : List Char) :
    wholeValue (whole ++ fraction) = wholeValue whole * 10 ^ fraction.length + wholeValue fraction := by
  induction whole with
  | nil => simp [wholeValue]
  | cons c rest ih =>
      rw [List.cons_append, wholeValue, wholeValue, ih, List.length_append, pow_add]
      ring

/-- Digits behind a point count as many powers of ten less. -/
theorem fractionValue_eq (digits : List Char) : fractionValue digits = wholeValue digits / 10 ^ digits.length := by
  induction digits with
  | nil => simp [fractionValue, wholeValue]
  | cons c rest ih =>
      have hten : (10 : ℚ) ^ rest.length ≠ 0 := pow_ne_zero _ (by norm_num)
      rw [fractionValue, wholeValue, ih, List.length_cons, pow_succ]
      field_simp

/-- The digits on both sides of a point, read as one coefficient, have the value of the numeral. -/
theorem value_ofNumeral (whole fraction : List Char) :
    (Decimal.ofNumeral whole fraction).value = wholeValue whole + fractionValue fraction := by
  have hten : (10 : ℚ) ^ fraction.length ≠ 0 := pow_ne_zero _ (by norm_num)
  rw [Decimal.value, Decimal.ofNumeral, cast_digitsValue, wholeValue_append, fractionValue_eq, zpow_neg,
    zpow_natCast]
  field_simp

theorem ne_point_of_all_isDigit (h : digits.all isDigit = true) : digits.all (· ≠ '.') = true := by
  refine List.all_eq_true.2 fun c hc => ?_
  have hdigit := List.all_eq_true.1 h c hc
  simp only [decide_eq_true_eq]
  rintro rfl
  cases hdigit

theorem numeralValue_whole (h : digits.all isDigit = true) : numeralValue digits = wholeValue digits := by
  have hall := List.all_eq_true.1 (ne_point_of_all_isDigit h)
  rw [numeralValue, List.takeWhile_eq_self_iff.2 hall, List.dropWhile_eq_nil_iff.2 hall, List.drop_nil, fractionValue,
    add_zero]

theorem numeralValue_fraction (h : whole.all isDigit = true) :
    numeralValue (whole ++ '.' :: fraction) = wholeValue whole + fractionValue fraction := by
  have hall := List.all_eq_true.1 (ne_point_of_all_isDigit h)
  rw [numeralValue, List.takeWhile_append_of_pos hall, List.dropWhile_append_of_pos hall]
  simp

/-- What a decimal is rounded to is the double nearest to it. -/
theorem Decimal.rounds_iff {d : Decimal} {x : Double} : Double.Rounds d.value x ↔ x = d.toDouble := by
  rw [Decimal.value_eq, Number.rounds_iff d.denominator_pos, Decimal.toDouble]

end LoxSyntax.Number

namespace LoxSyntax.Scan

open Number (Decimal Double numeralValue)

variable {source : String} {t : Token}

/-- A number of a source is taken from all of the numeral at its place. Its literal is the double nearest to
a decimal with the value of the numeral. -/
theorem exists_decimal_of_mem_tokens (ht : t ∈ tokens source) (hkind : t.kind = .number) :
    ∃ front rest d, source.toList = front ++ t.lexeme.toList ++ rest ∧ Munch .numeral t.lexeme.toList rest ∧
      t.literal = .number (Decimal.toDouble d) ∧ d.value = numeralValue t.lexeme.toList := by
  have hbody : t ∈ (sequence source).body := by
    rcases List.mem_append.1 ht with hbody | hlast
    · exact hbody
    · rw [List.mem_singleton.1 hlast] at hkind
      cases hkind
  obtain ⟨here, hplaced, htoken⟩ := List.mem_filterMap.1 hbody
  obtain ⟨front, rest, htext, hmunch⟩ :=
    exists_split_of_mem (covers_pieces source.toList) (mem_pieces_of_mem_placed hplaced)
  obtain ⟨-, hlexeme, hreads⟩ := makesToken_of_token? hmunch htoken
  have hchars : t.lexeme.toList = here.piece.chars := by rw [hlexeme, Piece.text, String.toList_ofList]
  have hmarks : ∀ text, (text, Kind.number) ∉ marks := by simp [marks, Kind.single, Kind.equalSuffix]
  rw [hchars]
  rw [hkind] at hreads
  generalize t.literal = literal at hreads ⊢
  cases hreads with
  | mark hshape =>
      rw [hshape] at hmunch
      exact absurd (mem_marks_of_munch hmunch) (hmarks _)
  | whole hshape hall =>
      refine ⟨front, rest, _, htext, hshape ▸ hmunch, rfl, ?_⟩
      rw [Number.value_ofNumeral, Number.numeralValue_whole hall, Number.fractionValue, add_zero]
  | fraction hshape hsplit hall _ =>
      refine ⟨front, rest, _, htext, hshape ▸ hmunch, rfl, ?_⟩
      rw [Number.value_ofNumeral, hsplit, Number.numeralValue_fraction hall]

/-- Every number of a source is correctly rounded. Its lexeme is all of the numeral at its place, and its
literal is the one double that the value of the numeral is rounded to: infinity from the overflow on, and
below it a finite double without a sign. A number whose numeral has the greater value is never the lesser
one, wherever it is read. -/
theorem number_correctly_rounded (source : String) (t : Token) (ht : t ∈ tokens source)
    (hkind : t.kind = .number) :
    ∃ front rest x, source.toList = front ++ t.lexeme.toList ++ rest ∧ Munch .numeral t.lexeme.toList rest ∧
      t.literal = .number x ∧
      (∀ y, Double.Rounds (numeralValue t.lexeme.toList) y ↔ y = x) ∧
      ((Number.overflow ≤ numeralValue t.lexeme.toList ∧ x = .infinite false) ∨
        (numeralValue t.lexeme.toList < Number.overflow ∧ ∃ magnitude, x = .finite false magnitude)) ∧
      ∀ (source' : String) (t' : Token) (x' : Double), t' ∈ tokens source' → t'.kind = .number →
        t'.literal = .number x' → numeralValue t.lexeme.toList ≤ numeralValue t'.lexeme.toList → ¬ x'.Less x := by
  obtain ⟨front, rest, d, htext, hmunch, hliteral, hvalue⟩ := exists_decimal_of_mem_tokens ht hkind
  have hrounds : Double.Rounds (numeralValue t.lexeme.toList) d.toDouble := by
    rw [← hvalue]
    exact Decimal.rounds_iff.2 rfl
  refine ⟨front, rest, d.toDouble, htext, hmunch, hliteral, fun y => ?_, ?_, ?_⟩
  · rw [← hvalue]
    exact Decimal.rounds_iff
  · generalize d.toDouble = x at hrounds
    cases hrounds with
    | @finite magnitude hbelow _ _ => exact .inr ⟨hbelow, magnitude, rfl⟩
    | infinite hoverflow => exact .inl ⟨hoverflow, rfl⟩
  · intro source' t' x' ht' hkind' hliteral' hle
    obtain ⟨_, _, d', _, _, hdecimal, hvalue'⟩ := exists_decimal_of_mem_tokens ht' hkind'
    rw [hliteral'] at hdecimal
    cases hdecimal
    rw [← hvalue, ← hvalue', d.value_eq, d'.value_eq] at hle
    exact Number.not_less_of_div_le d.denominator_pos d'.denominator_pos hle

/-- Halfway between two doubles the even one is taken: the numeral is one more than `2 ^ 53`, which is what it
is rounded to, and the point behind it with nothing but a zero does not matter. -/
theorem halfway_goes_to_even :
    let t : Token := ⟨.number, "9007199254740993.0", .number (.finite false ⟨0x4340000000000000, by decide⟩), 1⟩
    t ∈ tokens "-9007199254740993.0." ∧
      Double.Rounds (numeralValue t.lexeme.toList) (.finite false ⟨0x4340000000000000, by decide⟩) := by
  intro t
  have ht : t ∈ tokens "-9007199254740993.0." := by
    have hbody : (sequence "-9007199254740993.0.").body = [⟨.minus, "-", .nil, 1⟩, t, ⟨.dot, ".", .nil, 1⟩] := by
      decide +kernel
    rw [tokens, Sequence.toList, hbody]
    exact List.mem_cons_of_mem _ List.mem_cons_self
  obtain ⟨_, _, x, _, _, hliteral, hrounds, _⟩ := number_correctly_rounded _ t ht rfl
  refine ⟨ht, (hrounds _).2 ?_⟩
  exact Value.number.inj hliteral

end LoxSyntax.Scan
