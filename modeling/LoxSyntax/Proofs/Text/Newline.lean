/-
# LoxSyntax.Proofs.Text.Newline -- one line feed for every line end

`unifyNewlines` goes over a text once. What it does can be said in two steps: every carriage return with a
line feed behind it is replaced by a line feed, and then every carriage return that is left
(`unifyNewlines_eq_replaceAll`). A text whose lines end all in the same way becomes the text whose lines end
in line feeds (`unifyNewlines_withLineEnd`).
-/
import LoxSyntax.Text.Newline

namespace LoxSyntax.Text

variable {old new rest text : List Char} {c : Char}

/-! ## Replacing -/

/-- A text with every `old` in it, from left to right, replaced by `new`; `old` must not be empty. -/
def replaceAll (old new : List Char) : List Char → List Char
  | [] => []
  | c :: rest =>
    if old <+: c :: rest then new ++ replaceAll old new (rest.drop (old.length - 1))
    else c :: replaceAll old new rest
termination_by text => text.length
decreasing_by all_goals simp only [List.length_cons, List.length_drop]; omega

theorem replaceAll_append (h : old ≠ []) (new rest : List Char) :
    replaceAll old new (old ++ rest) = new ++ replaceAll old new rest := by
  cases old with
  | nil => exact absurd rfl h
  | cons c old =>
      have hprefix : c :: old <+: c :: (old ++ rest) := List.prefix_append (c :: old) rest
      have hrest : (old ++ rest).drop ((c :: old).length - 1) = rest := List.drop_left
      rw [List.cons_append, replaceAll, if_pos hprefix, hrest]

theorem replaceAll_cons_kept (h : ¬old <+: c :: rest) (new : List Char) :
    replaceAll old new (c :: rest) = c :: replaceAll old new rest := by
  rw [replaceAll, if_neg h]

/-- Replacing a character by one goes over a text character by character. -/
theorem replaceAll_singleton (a b : Char) (text : List Char) :
    replaceAll [a] [b] text = text.map fun c => if c = a then b else c := by
  induction text with
  | nil => rw [replaceAll, List.map_nil]
  | cons c text ih =>
      by_cases h : c = a
      · rw [List.map_cons, if_pos h, ← ih, h]
        exact replaceAll_append (List.cons_ne_nil _ _) [b] text
      · rw [List.map_cons, if_neg h, ← ih]
        exact replaceAll_cons_kept (fun hprefix => h (List.cons_prefix_cons.1 hprefix).1.symm) [b]

/-- One walk over a text replaces the two characters of a line end and then the single ones. -/
theorem unifyNewlines_eq_replaceAll (text : List Char) :
    unifyNewlines text = replaceAll ['\r'] ['\n'] (replaceAll ['\r', '\n'] ['\n'] text) := by
  rw [replaceAll_singleton]
  fun_induction unifyNewlines text with
  | case1 => rw [replaceAll, List.map_nil]
  | case2 rest ih =>
      have hpair : replaceAll ['\r', '\n'] ['\n'] ('\r' :: '\n' :: rest) =
          '\n' :: replaceAll ['\r', '\n'] ['\n'] rest :=
        replaceAll_append (List.cons_ne_nil _ _) ['\n'] rest
      rw [hpair, List.map_cons, ← ih]
      rfl
  | case3 c rest hpair ih =>
      have hsingle : ¬['\r', '\n'] <+: c :: rest := by
        rintro ⟨more, hmore⟩
        obtain ⟨rfl, rfl⟩ := List.cons.inj hmore
        exact hpair more rfl rfl
      rw [replaceAll_cons_kept hsingle, List.map_cons, ← ih]

/-! ## Line ends of one kind -/

/-- A text with `lineEnd` in the place of its line feeds. -/
def withLineEnd (lineEnd text : List Char) : List Char := text.flatMap fun c => if c = '\n' then lineEnd else [c]

/-- The three ends that a line can have. -/
def lineEnds : List (List Char) := [['\n'], ['\r', '\n'], ['\r']]

theorem withLineEnd_cons (lineEnd : List Char) (c : Char) (text : List Char) :
    withLineEnd lineEnd (c :: text) = (if c = '\n' then lineEnd else [c]) ++ withLineEnd lineEnd text :=
  List.flatMap_cons

theorem withLineEnd_lineFeed (text : List Char) : withLineEnd ['\n'] text = text := by
  induction text with
  | nil => rfl
  | cons c text ih =>
      rw [withLineEnd_cons, ih]
      split
      · rw [List.singleton_append, ‹c = '\n'›]
      · exact List.singleton_append

theorem unifyNewlines_cons (h : ¬(c = '\r' ∧ rest.head? = some '\n')) :
    unifyNewlines (c :: rest) = (if c = '\r' then '\n' else c) :: unifyNewlines rest := by
  rw [unifyNewlines]
  rintro more rfl rfl
  exact h ⟨rfl, rfl⟩

/-- Single carriage returns do not come before a line feed. -/
theorem head?_withLineEnd (text : List Char) : (withLineEnd ['\r'] text).head? ≠ some '\n' := by
  cases text with
  | nil => nofun
  | cons c text =>
      rw [withLineEnd_cons]
      by_cases hc : c = '\n'
      · rw [if_pos hc]
        exact nofun
      · rw [if_neg hc]
        exact fun heq => hc (Option.some.inj heq)

/-- Whichever of the three ends the lines of a text have, they become lines that end in line feeds. -/
theorem unifyNewlines_withLineEnd {lineEnd : List Char} (h : lineEnd ∈ lineEnds) (htext : '\r' ∉ text) :
    unifyNewlines (withLineEnd lineEnd text) = text := by
  induction text with
  | nil => rfl
  | cons c text ih =>
      rw [List.mem_cons, not_or] at htext
      obtain ⟨hc, htext⟩ := htext
      rw [withLineEnd_cons]
      by_cases hfeed : c = '\n'
      · rw [if_pos hfeed, hfeed]
        simp only [lineEnds, List.mem_cons, List.not_mem_nil, or_false] at h
        rcases h with rfl | rfl | rfl
        · rw [List.singleton_append, unifyNewlines_cons (by simp), ih htext]
          rfl
        · exact congrArg ('\n' :: ·) (ih htext)
        · rw [List.singleton_append, unifyNewlines_cons fun hpair => head?_withLineEnd text hpair.2, ih htext]
          rfl
      · rw [if_neg hfeed, List.singleton_append, unifyNewlines_cons fun hpair => hc hpair.1.symm, ih htext,
          if_neg (Ne.symm hc)]

end LoxSyntax.Text
