/-
# LoxSyntax.Proofs.Scan.Shape -- the piece that a text starts with is the one that the rules allow

`Munch` has a rule for each shape of piece, and `shapeAt` decides from the text which piece comes next.
They say the same (`munch_iff`): the piece that is found obeys its rule, and no rule allows another piece
of the same text. So a piece depends on nothing but the text from it on.

What the first character settles is stated once, in `Lead`, with one equation of `shapeAt` for each case.
Comments between marks, strings and numerals look further, each in a function of its own, and each of the
three is met by a lemma in both directions.
-/
import LoxSyntax.Scan.Munch
import Mathlib.Data.List.TakeWhile

namespace LoxSyntax.Scan

open Number (isDigit)

/-! ## The longest prefix in a class -/

section Spans

variable {p : Char → Bool} {body rest text : List Char}

theorem takeWhile_of_stopsAt (hstop : StopsAt p rest) : rest.takeWhile p = [] := by
  cases rest with
  | nil => rfl
  | cons c rest =>
      have hc : p c = false := hstop c rfl
      simp [hc]

theorem takeWhile_of_all (h : body.all p = true) : body.takeWhile p = body :=
  List.takeWhile_eq_self_iff.2 (List.all_eq_true.1 h)

theorem takeWhile_append_of_stopsAt (h : body.all p = true) (hstop : StopsAt p rest) :
    (body ++ rest).takeWhile p = body := by
  rw [List.takeWhile_append_of_pos (List.all_eq_true.1 h), takeWhile_of_stopsAt hstop, List.append_nil]

theorem stopsAt_dropWhile (p : Char → Bool) (text : List Char) : StopsAt p (text.dropWhile p) := by
  intro c hc
  have h := List.head?_dropWhile_not p text
  rw [Option.mem_def] at hc
  rw [hc] at h
  exact h

theorem take_length_takeWhile (p : Char → Bool) (text : List Char) :
    text.take (text.takeWhile p).length = text.takeWhile p := by
  conv => lhs; arg 2; rw [← List.takeWhile_append_dropWhile (p := p) (l := text)]
  exact List.take_left

theorem drop_length_takeWhile (p : Char → Bool) (text : List Char) :
    text.drop (text.takeWhile p).length = text.dropWhile p := by
  conv => lhs; arg 2; rw [← List.takeWhile_append_dropWhile (p := p) (l := text)]
  exact List.drop_left

theorem not_mem_takeWhile_ne (c : Char) (text : List Char) : c ∉ text.takeWhile (· ≠ c) := by
  intro hmem
  have h := List.mem_takeWhile_imp hmem
  simp at h

theorem all_ne_of_not_mem {c : Char} (h : c ∉ body) : body.all (· ≠ c) = true := by
  rw [List.all_eq_true]
  intro d hd
  simpa using fun heq : d = c => h (heq ▸ hd)

end Spans

/-! ## Comments between marks -/

section Comments

variable {c : Char} {text body rest : List Char}

/-- A slash stands right behind a character. -/
def BeforeSlash (text : List Char) : Prop := ∃ after, text = '/' :: after

theorem closes_cons : Closes (c :: text) ↔ (c = '*' ∧ BeforeSlash text) ∨ Closes text := by
  constructor
  · rintro ⟨before, after, h⟩
    cases before with
    | nil =>
        obtain ⟨rfl, rfl⟩ := List.cons.inj h
        exact .inl ⟨rfl, after, rfl⟩
    | cons d before => exact .inr ⟨before, after, (List.cons.inj h).2⟩
  · rintro (⟨rfl, after, rfl⟩ | ⟨before, after, rfl⟩)
    · exact ⟨[], after, rfl⟩
    · exact ⟨c :: before, after, rfl⟩

theorem not_closes_nil : ¬ Closes [] := by
  rintro ⟨before, after, h⟩
  cases before <;> cases h

/-- Where a star follows a text, it alone says nothing of a slash. -/
theorem beforeSlash_append : BeforeSlash (body ++ '*' :: rest) ↔ BeforeSlash body := by
  cases body with
  | nil => simp [BeforeSlash]
  | cons d body => simp [BeforeSlash]

/-- The closing mark is looked for further on where it does not stand at once. -/
theorem blockLength?_cons (h : ¬ (c = '*' ∧ BeforeSlash text)) :
    blockLength? (c :: text) = (blockLength? text).map (· + 1) := by
  rw [blockLength?]
  intro after hc htext
  exact h ⟨hc, after, htext⟩

theorem blockLength?_eq_none_iff : blockLength? text = none ↔ ¬ Closes text := by
  induction text with
  | nil => exact ⟨fun _ => not_closes_nil, fun _ => rfl⟩
  | cons c text ih =>
      rw [closes_cons]
      by_cases hmark : c = '*' ∧ BeforeSlash text
      · obtain ⟨rfl, after, rfl⟩ := hmark
        simp [blockLength?, BeforeSlash]
      · rw [blockLength?_cons hmark, Option.map_eq_none_iff, ih]
        simp [hmark]

/-- What is found is the first closing mark. -/
theorem exists_body_of_blockLength? {count : Nat} (h : blockLength? text = some count) :
    ∃ body after, text = body ++ '*' :: '/' :: after ∧ count = body.length + 2 ∧
      ¬ Closes (body ++ ['*']) := by
  induction text generalizing count with
  | nil => cases h
  | cons c text ih =>
      by_cases hmark : c = '*' ∧ BeforeSlash text
      · -- a star alone closes nothing, so the empty body is not closed before its mark
        obtain ⟨rfl, after, rfl⟩ := hmark
        refine ⟨[], after, rfl, (Option.some.inj h).symm, ?_⟩
        simp [closes_cons, not_closes_nil, BeforeSlash]
      · rw [blockLength?_cons hmark, Option.map_eq_some_iff] at h
        obtain ⟨count', hcount, rfl⟩ := h
        obtain ⟨body, after, rfl, rfl, hno⟩ := ih hcount
        refine ⟨c :: body, after, rfl, rfl, ?_⟩
        rw [List.cons_append, closes_cons, beforeSlash_append]
        rw [beforeSlash_append] at hmark
        exact not_or.2 ⟨hmark, hno⟩

theorem blockLength?_append (h : ¬ Closes (body ++ ['*'])) (rest : List Char) :
    blockLength? (body ++ '*' :: '/' :: rest) = some (body.length + 2) := by
  induction body with
  | nil => rfl
  | cons c body ih =>
      rw [List.cons_append, closes_cons, not_or, beforeSlash_append] at h
      have hmark : ¬ (c = '*' ∧ BeforeSlash (body ++ '*' :: '/' :: rest)) := by
        rw [beforeSlash_append]
        exact h.1
      rw [List.cons_append, blockLength?_cons hmark, ih h.2]
      rfl

/-- The piece that starts with a slash obeys a rule. -/
theorem munch_slashAt (rest : List Char) :
    Munch (slashAt rest).1 ('/' :: rest.take (slashAt rest).2) (rest.drop (slashAt rest).2) := by
  unfold slashAt
  split
  · rename_i after
    rw [List.take_succ_cons, List.drop_succ_cons, take_length_takeWhile, drop_length_takeWhile]
    exact .lineComment (not_mem_takeWhile_ne _ _) (stopsAt_dropWhile _ _)
  · rename_i after
    cases hlength : blockLength? after with
    | none =>
        have hno := blockLength?_eq_none_iff.1 hlength
        simp only [List.take_succ_cons, List.drop_succ_cons, List.take_length, List.drop_length]
        exact .openComment hno
    | some count =>
        obtain ⟨body, rest, rfl, rfl, hno⟩ := exists_body_of_blockLength? hlength
        have hsplit : body ++ '*' :: '/' :: rest = (body ++ ['*', '/']) ++ rest := by simp
        have hcount : (body ++ ['*', '/']).length = body.length + 2 := by simp
        simp only [List.take_succ_cons, List.drop_succ_cons]
        rw [hsplit, List.take_left' hcount, List.drop_left' hcount]
        exact .blockComment hno
  · rename_i hline hblock
    refine .slash ?_ ?_
    · intro hhead
      obtain ⟨after, rfl⟩ := List.head?_eq_some_iff.1 hhead
      exact hline after rfl
    · intro hhead
      obtain ⟨after, rfl⟩ := List.head?_eq_some_iff.1 hhead
      exact hblock after rfl

theorem slashAt_slash (hline : rest.head? ≠ some '/') (hblock : rest.head? ≠ some '*') :
    slashAt rest = (.mark .slash, 0) := by
  cases rest with
  | nil => rfl
  | cons c rest =>
      have hc : c ≠ '/' := fun h => hline (by rw [h]; rfl)
      have hc' : c ≠ '*' := fun h => hblock (by rw [h]; rfl)
      simp [slashAt, hc, hc']

theorem slashAt_lineComment (h : '\n' ∉ body) (hstop : StopsAt (· ≠ '\n') rest) :
    slashAt ('/' :: body ++ rest) = (.comment, ('/' :: body).length) := by
  rw [List.cons_append, slashAt, takeWhile_append_of_stopsAt (all_ne_of_not_mem h) hstop]
  rfl

theorem slashAt_blockComment (h : ¬ Closes (body ++ ['*'])) (rest : List Char) :
    slashAt (('*' :: body ++ ['*', '/']) ++ rest) = (.comment, ('*' :: body ++ ['*', '/']).length) := by
  have hlength := blockLength?_append h rest
  simp only [List.append_assoc, List.cons_append, List.nil_append, slashAt, hlength]
  simp

theorem slashAt_openComment (h : ¬ Closes body) :
    slashAt ('*' :: body) = (.openComment, ('*' :: body).length) := by
  have hlength := blockLength?_eq_none_iff.2 h
  simp only [slashAt, hlength, List.length_cons]

end Comments

/-! ## Strings -/

/-- The piece that starts with a quote obeys a rule. -/
theorem munch_stringAt (rest : List Char) :
    Munch (stringAt rest).1 (Text.doubleQuote :: rest.take (stringAt rest).2)
      (rest.drop (stringAt rest).2) := by
  have hno : Text.doubleQuote ∉ rest.takeWhile (· ≠ Text.doubleQuote) := not_mem_takeWhile_ne _ _
  have hstop := stopsAt_dropWhile (· ≠ Text.doubleQuote) rest
  have hsplit := List.takeWhile_append_dropWhile (p := (· ≠ Text.doubleQuote)) (l := rest)
  simp only [stringAt]
  generalize rest.takeWhile (· ≠ Text.doubleQuote) = inner at hno hsplit ⊢
  generalize rest.dropWhile (· ≠ Text.doubleQuote) = after at hstop hsplit
  subst hsplit
  -- whether the quote is closed is whether anything is left behind the text without quotes
  cases after with
  | nil =>
      simp only [List.append_nil, Nat.lt_irrefl, if_false, List.take_length, List.drop_length]
      exact .openString hno
  | cons c after =>
      obtain rfl : c = Text.doubleQuote := by simpa using hstop c rfl
      have hassoc : inner ++ Text.doubleQuote :: after = (inner ++ [Text.doubleQuote]) ++ after := by simp
      have hcount : (inner ++ [Text.doubleQuote]).length = inner.length + 1 := by simp
      have hlt : inner.length < (inner ++ Text.doubleQuote :: after).length := by simp
      rw [if_pos hlt, hassoc, List.take_left' hcount, List.drop_left' hcount]
      exact .string hno

theorem stringAt_closed {inner : List Char} (h : Text.doubleQuote ∉ inner) (rest : List Char) :
    stringAt ((inner ++ [Text.doubleQuote]) ++ rest) =
      (.string, (inner ++ [Text.doubleQuote]).length) := by
  have hstop : StopsAt (· ≠ Text.doubleQuote) (Text.doubleQuote :: rest) := by
    intro c hc
    obtain rfl : Text.doubleQuote = c := Option.some.inj hc
    decide
  simp only [List.append_assoc, List.singleton_append, stringAt,
    takeWhile_append_of_stopsAt (all_ne_of_not_mem h) hstop]
  simp

theorem stringAt_open {inner : List Char} (h : Text.doubleQuote ∉ inner) :
    stringAt inner = (.openString, inner.length) := by
  have hinner : inner.takeWhile (· ≠ Text.doubleQuote) = inner :=
    takeWhile_of_all (all_ne_of_not_mem h)
  simp only [stringAt, hinner]
  simp

/-! ## Numerals -/

/-- The piece that starts with a digit obeys a rule. -/
theorem munch_numeralLength {c : Char} (hc : isDigit c = true) (rest : List Char) :
    Munch .numeral (c :: rest.take (numeralLength rest)) (rest.drop (numeralLength rest)) := by
  have hall : (rest.takeWhile isDigit).all isDigit = true := List.all_takeWhile
  have hstop := stopsAt_dropWhile isDigit rest
  have hdrop := drop_length_takeWhile isDigit rest
  have hsplit := List.takeWhile_append_dropWhile (p := isDigit) (l := rest)
  simp only [numeralLength]
  generalize rest.takeWhile isDigit = whole at hall hdrop hsplit ⊢
  generalize rest.dropWhile isDigit = tail at hstop hdrop hsplit
  subst hsplit
  have hwhole : (c :: whole).all isDigit = true := by simp [hc, hall]
  rw [hdrop]
  split
  · rename_i after
    split
    · -- a point with no digit behind it is left to the next piece
      rename_i hempty
      rw [List.take_left, List.drop_left]
      refine .whole (List.cons_ne_nil _ _) hwhole hstop ?_
      rintro after' heq
      obtain rfl := (List.cons.inj heq).2
      have hafter := stopsAt_dropWhile isDigit after
      have hsame := List.takeWhile_append_dropWhile (p := isDigit) (l := after)
      rw [List.isEmpty_iff.1 hempty, List.nil_append] at hsame
      rwa [hsame] at hafter
    · rename_i hne
      have hassoc : whole ++ '.' :: after =
          (whole ++ '.' :: after.takeWhile isDigit) ++ after.dropWhile isDigit := by
        rw [List.append_assoc, List.cons_append, List.takeWhile_append_dropWhile]
      have hcount : (whole ++ '.' :: after.takeWhile isDigit).length =
          whole.length + 1 + (after.takeWhile isDigit).length := by
        simp only [List.length_append, List.length_cons]
        omega
      rw [← hcount]
      conv in List.take _ _ => rw [hassoc]
      conv in List.drop _ _ => rw [hassoc]
      rw [List.take_left, List.drop_left]
      have hfraction : after.takeWhile isDigit ≠ [] := fun h => hne (List.isEmpty_iff.2 h)
      exact .fraction (List.cons_ne_nil c whole) hwhole hfraction List.all_takeWhile
        (stopsAt_dropWhile _ _)
  · rename_i hno
    rw [List.take_left, List.drop_left]
    exact .whole (List.cons_ne_nil _ _) hwhole hstop fun after heq => absurd heq (hno after)

theorem numeralLength_whole {digits rest : List Char} (hall : digits.all isDigit = true)
    (hstop : StopsAt isDigit rest) (hpoint : ∀ after, rest = '.' :: after → StopsAt isDigit after) :
    numeralLength (digits ++ rest) = digits.length := by
  simp only [numeralLength]
  rw [takeWhile_append_of_stopsAt hall hstop, List.drop_left]
  split
  · rename_i after
    rw [takeWhile_of_stopsAt (hpoint after rfl)]
    rfl
  · rfl

theorem numeralLength_fraction {whole fraction rest : List Char} (hwhole : whole.all isDigit = true)
    (hne : fraction ≠ []) (hfraction : fraction.all isDigit = true) (hstop : StopsAt isDigit rest) :
    numeralLength (whole ++ '.' :: fraction ++ rest) = (whole ++ '.' :: fraction).length := by
  have hpoint : StopsAt isDigit ('.' :: fraction ++ rest) := by
    intro c hc
    obtain rfl : '.' = c := Option.some.inj hc
    decide
  have hempty : fraction.isEmpty = false := by simpa using hne
  simp only [numeralLength]
  rw [List.append_assoc, takeWhile_append_of_stopsAt hwhole hpoint, List.drop_left]
  simp only [List.cons_append, takeWhile_append_of_stopsAt hfraction hstop, hempty]
  simp only [List.length_append, List.length_cons, Bool.false_eq_true, if_false]
  omega

/-! ## The first character -/

/-- What the first character of a piece settles. -/
inductive Lead (c : Char) : Prop where
  | mark {kind : Kind} (h : (c, kind) ∈ Kind.single)
  | operator {short long : Kind} (h : (c, short, long) ∈ Kind.equalSuffix)
  | slash (h : c = '/')
  | blank (h : c ∈ blanks)
  | newline (h : c = '\n')
  | quote (h : c = Text.doubleQuote)
  | digit (h : isDigit c = true)
  | letter (h : isLetter c = true)
  | stray (h : IsStray c)

theorem mem_of_lookup_eq_some {α β : Type} [BEq α] [LawfulBEq α] {table : List (α × β)} {key : α}
    {value : β} (h : table.lookup key = some value) : (key, value) ∈ table := by
  obtain ⟨before, after, rfl, _⟩ := List.lookup_eq_some_iff.1 h
  simp

/-- Every character leads a piece of some shape. -/
theorem lead (c : Char) : Lead c := by
  cases hmark : Kind.single.lookup c with
  | some kind => exact .mark (mem_of_lookup_eq_some hmark)
  | none =>
      cases hoperator : Kind.equalSuffix.lookup c with
      | some kinds => exact .operator (mem_of_lookup_eq_some hoperator)
      | none =>
          by_cases hslash : c = '/'
          · exact .slash hslash
          by_cases hblank : c ∈ blanks
          · exact .blank hblank
          by_cases hnewline : c = '\n'
          · exact .newline hnewline
          by_cases hquote : c = Text.doubleQuote
          · exact .quote hquote
          by_cases hdigit : isDigit c = true
          · exact .digit hdigit
          by_cases hletter : isLetter c = true
          · exact .letter hletter
          exact .stray ⟨hmark, hoperator, hslash, hblank, hnewline, hquote, Bool.eq_false_iff.2 hdigit,
            Bool.eq_false_iff.2 hletter⟩

/-- A class of characters is plain if none of its members stands for something by itself. -/
structure IsPlain (p : Char → Bool) : Prop where
  noMark : ∀ entry ∈ Kind.single, p entry.1 = false
  noOperator : ∀ entry ∈ Kind.equalSuffix, p entry.1 = false
  noOther : ∀ c ∈ '/' :: '\n' :: Text.doubleQuote :: blanks, p c = false

theorem isPlain_isDigit : IsPlain isDigit :=
  ⟨by decide, by decide, by simp [isDigit, blanks, Text.doubleQuote]⟩

theorem isPlain_isLetter : IsPlain isLetter :=
  ⟨by decide, by decide, by simp [isLetter, blanks, Text.doubleQuote]⟩

theorem IsPlain.lookup_eq_none {β : Type} {p : Char → Bool} {table : List (Char × β)} {c : Char}
    (h : ∀ entry ∈ table, p entry.1 = false) (hc : p c = true) : table.lookup c = none := by
  rw [List.lookup_eq_none_iff]
  intro entry hmem
  have hno := h entry hmem
  rw [bne_iff_ne]
  rintro rfl
  rw [hc] at hno
  cases hno

theorem IsPlain.shapeAt_eq {p : Char → Bool} {c : Char} (h : IsPlain p) (hc : p c = true)
    (rest : List Char) :
    shapeAt c rest = if isDigit c then (.numeral, numeralLength rest)
      else if isLetter c then (.word, (rest.takeWhile isWordChar).length) else (.stray, 0) := by
  have hother : ∀ d ∈ '/' :: '\n' :: Text.doubleQuote :: blanks, c ≠ d := by
    rintro d hmem rfl
    have hno := h.noOther c hmem
    rw [hc] at hno
    cases hno
  have hblank : c ∉ blanks := fun hmem => hother c (by simp [hmem]) rfl
  have hslash : c ≠ '/' := hother _ (by simp)
  have hnewline : c ≠ '\n' := hother _ (by simp)
  have hquote : c ≠ Text.doubleQuote := hother _ (by simp)
  simp only [shapeAt, IsPlain.lookup_eq_none h.noMark hc, IsPlain.lookup_eq_none h.noOperator hc,
    if_neg hslash, if_neg hblank, if_neg hnewline, if_neg hquote]

theorem isDigit_eq_false_of_isLetter {c : Char} (h : isLetter c = true) : isDigit c = false := by
  simp only [isLetter, Bool.or_eq_true, Bool.and_eq_true, decide_eq_true_eq, beq_iff_eq] at h
  have hle : ¬ c ≤ '9' := by
    rcases h with (⟨h, _⟩ | ⟨h, _⟩) | rfl
    · exact fun hle => absurd (Char.le_trans h hle) (by decide)
    · exact fun hle => absurd (Char.le_trans h hle) (by decide)
    · decide
  simp [isDigit, hle]

section Equations

variable {c : Char} {rest : List Char}

theorem shapeAt_mark {kind : Kind} (h : (c, kind) ∈ Kind.single) : shapeAt c rest = (.mark kind, 0) := by
  simp only [Kind.single, List.mem_cons, Prod.mk.injEq, List.not_mem_nil, or_false] at h
  rcases h with ⟨rfl, rfl⟩ | ⟨rfl, rfl⟩ | ⟨rfl, rfl⟩ | ⟨rfl, rfl⟩ | ⟨rfl, rfl⟩ | ⟨rfl, rfl⟩ |
    ⟨rfl, rfl⟩ | ⟨rfl, rfl⟩ | ⟨rfl, rfl⟩ | ⟨rfl, rfl⟩ <;> rfl

theorem shapeAt_operator {short long : Kind} (h : (c, short, long) ∈ Kind.equalSuffix) :
    shapeAt c rest = if rest.head? = some '=' then (.mark long, 1) else (.mark short, 0) := by
  simp only [Kind.equalSuffix, List.mem_cons, Prod.mk.injEq, List.not_mem_nil, or_false] at h
  rcases h with ⟨rfl, rfl, rfl⟩ | ⟨rfl, rfl, rfl⟩ | ⟨rfl, rfl, rfl⟩ | ⟨rfl, rfl, rfl⟩ <;> rfl

theorem shapeAt_slash : shapeAt '/' rest = slashAt rest := rfl

theorem shapeAt_blank (h : c ∈ blanks) : shapeAt c rest = (.blank, 0) := by
  simp only [blanks, List.mem_cons, List.not_mem_nil, or_false] at h
  rcases h with rfl | rfl | rfl <;> rfl

theorem shapeAt_newline : shapeAt '\n' rest = (.newline, 0) := rfl

theorem shapeAt_quote : shapeAt Text.doubleQuote rest = stringAt rest := rfl

theorem shapeAt_digit (h : isDigit c = true) : shapeAt c rest = (.numeral, numeralLength rest) := by
  rw [isPlain_isDigit.shapeAt_eq h, if_pos h]

theorem shapeAt_letter (h : isLetter c = true) :
    shapeAt c rest = (.word, (rest.takeWhile isWordChar).length) := by
  rw [isPlain_isLetter.shapeAt_eq h, if_neg (by simp [isDigit_eq_false_of_isLetter h]), if_pos h]

theorem shapeAt_stray (h : IsStray c) : shapeAt c rest = (.stray, 0) := by
  simp only [shapeAt, h.noMark, h.noOperator, if_neg h.noSlash, if_neg h.noBlank, if_neg h.noNewline,
    if_neg h.noQuote, h.noDigit, h.noLetter, Bool.false_eq_true, if_false]

end Equations

/-! ## Rules and function -/

/-- The piece that is found obeys a rule. -/
theorem munch_shapeAt (c : Char) (rest : List Char) :
    Munch (shapeAt c rest).1 (c :: rest.take (shapeAt c rest).2) (rest.drop (shapeAt c rest).2) := by
  cases lead c with
  | mark h => rw [shapeAt_mark h]; exact .single h
  | operator h =>
      rw [shapeAt_operator h]
      by_cases hequal : rest.head? = some '='
      · obtain ⟨after, rfl⟩ := List.head?_eq_some_iff.1 hequal
        rw [if_pos hequal]
        exact .long h
      · rw [if_neg hequal]
        exact .short h hequal
  | slash h => subst h; rw [shapeAt_slash]; exact munch_slashAt rest
  | blank h => rw [shapeAt_blank h]; exact .blank h
  | newline h => subst h; rw [shapeAt_newline]; exact .newline
  | quote h => subst h; rw [shapeAt_quote]; exact munch_stringAt rest
  | digit h => rw [shapeAt_digit h]; exact munch_numeralLength h rest
  | letter h =>
      rw [shapeAt_letter h, take_length_takeWhile, drop_length_takeWhile]
      exact .word h List.all_takeWhile (stopsAt_dropWhile _ _)
  | stray h => rw [shapeAt_stray h]; exact .stray h

/-- A piece that obeys a rule is the one that is found. -/
theorem shapeAt_of_munch {shape : Shape} {text rest : List Char} (h : Munch shape text rest) :
    ∃ c others, text = c :: others ∧ shapeAt c (others ++ rest) = (shape, others.length) := by
  cases h with
  | @single c kind _ hmem => exact ⟨c, [], rfl, shapeAt_mark hmem⟩
  | @short c short long _ hmem hno =>
      refine ⟨c, [], rfl, ?_⟩
      rw [shapeAt_operator hmem, List.nil_append, if_neg hno]
      rfl
  | @long c short long _ hmem =>
      refine ⟨c, ['='], rfl, ?_⟩
      have hequal : (['='] ++ rest).head? = some '=' := rfl
      rw [shapeAt_operator hmem, if_pos hequal]
      rfl
  | slash hline hblock => exact ⟨'/', [], rfl, slashAt_slash hline hblock⟩
  | @lineComment body _ hno hstop => exact ⟨'/', '/' :: body, rfl, slashAt_lineComment hno hstop⟩
  | @blockComment body _ hno =>
      exact ⟨'/', '*' :: body ++ ['*', '/'], rfl, slashAt_blockComment hno rest⟩
  | @openComment body hno =>
      refine ⟨'/', '*' :: body, rfl, ?_⟩
      rw [List.append_nil]
      exact slashAt_openComment hno
  | @blank c _ hmem => exact ⟨c, [], rfl, shapeAt_blank hmem⟩
  | newline => exact ⟨'\n', [], rfl, rfl⟩
  | @string inner _ hno =>
      exact ⟨Text.doubleQuote, inner ++ [Text.doubleQuote], rfl, stringAt_closed hno rest⟩
  | @openString inner hno =>
      refine ⟨Text.doubleQuote, inner, rfl, ?_⟩
      rw [List.append_nil]
      exact stringAt_open hno
  | whole hne hall hstop hpoint =>
      obtain ⟨c, digits, rfl⟩ := List.exists_cons_of_ne_nil hne
      rw [List.all_cons, Bool.and_eq_true] at hall
      refine ⟨c, digits, rfl, ?_⟩
      rw [shapeAt_digit hall.1, numeralLength_whole hall.2 hstop hpoint]
  | @fraction _ fraction _ hne hall hne' hall' hstop =>
      obtain ⟨c, whole, rfl⟩ := List.exists_cons_of_ne_nil hne
      rw [List.all_cons, Bool.and_eq_true] at hall
      refine ⟨c, whole ++ '.' :: fraction, rfl, ?_⟩
      rw [shapeAt_digit hall.1, numeralLength_fraction hall.2 hne' hall' hstop]
  | @word c others _ hletter hall hstop =>
      refine ⟨c, others, rfl, ?_⟩
      rw [shapeAt_letter hletter, takeWhile_append_of_stopsAt hall hstop]
  | @stray c _ hstray => exact ⟨c, [], rfl, shapeAt_stray hstray⟩

/-- The rules and the function agree on every text. -/
theorem munch_iff {shape : Shape} {c : Char} {others rest : List Char} :
    Munch shape (c :: others) rest ↔ shapeAt c (others ++ rest) = (shape, others.length) := by
  constructor
  · intro h
    obtain ⟨d, others', heq, hshape⟩ := shapeAt_of_munch h
    obtain ⟨rfl, rfl⟩ := List.cons.inj heq
    exact hshape
  · intro h
    have hmunch := munch_shapeAt c (others ++ rest)
    rw [h] at hmunch
    simpa only [List.take_left, List.drop_left] using hmunch

end LoxSyntax.Scan
