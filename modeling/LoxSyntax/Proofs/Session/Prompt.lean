/-
# LoxSyntax.Proofs.Session.Prompt -- the lines of a prompt do not know of each other

A prompt runs all its lines on one session, whose diagnostics decide whether trees are printed. It resets
the session behind each line, whatever the line came to, so every line finds a session that holds nothing:
what the prompt gives out is what its lines give out on fresh sessions, one after the other
(`runLines_of_fresh`).

Which lines a text has is said by `LinesOf`, without the function that cuts it.
-/
import LoxSyntax.Session.Command
import Mathlib

namespace LoxSyntax

/-! ## Lines -/

namespace Text

/-- A text has lines: each but the last is ended by a line feed, and the last one may be. -/
inductive LinesOf : List Char → List (List Char) → Prop where
  | nil : LinesOf [] []
  | last {line : List Char} : line ≠ [] → '\n' ∉ line → LinesOf line [line]
  | ended {line rest : List Char} {more : List (List Char)} :
      '\n' ∉ line → LinesOf rest more → LinesOf (line ++ '\n' :: rest) (line :: more)

variable {line text : List Char} {ls : List (List Char)}

theorem lines_of_not_mem (hne : line ≠ []) (hno : '\n' ∉ line) : lines line = [line] := by
  induction line with
  | nil => exact absurd rfl hne
  | cons c line ih =>
      rw [List.mem_cons, not_or] at hno
      cases line with
      | nil => simp [lines, Ne.symm hno.1]
      | cons d line => rw [lines, if_neg (Ne.symm hno.1), ih (List.cons_ne_nil d line) hno.2]

theorem lines_append_newline (hno : '\n' ∉ line) (rest : List Char) :
    lines (line ++ '\n' :: rest) = line :: lines rest := by
  induction line with
  | nil => simp [lines]
  | cons c line ih =>
      rw [List.mem_cons, not_or] at hno
      simp [lines, Ne.symm hno.1, ih hno.2]

theorem linesOf_lines (text : List Char) : LinesOf text (lines text) := by
  induction text with
  | nil => exact .nil
  | cons c rest ih =>
      rw [lines]
      by_cases hc : c = '\n'
      · subst hc
        exact .ended List.not_mem_nil ih
      · -- a character that ends no line is put in front of the first line of the rest
        rw [if_neg hc]
        generalize lines rest = ls at ih
        cases ih with
        | nil => exact .last (List.cons_ne_nil c []) (by simpa using Ne.symm hc)
        | last hne hno => exact .last (List.cons_ne_nil _ _) (by simp [hno, Ne.symm hc])
        | @ended line rest more hno hrest =>
            have hline : '\n' ∉ c :: line := by simp [hno, Ne.symm hc]
            exact .ended hline hrest

/-- A text has exactly the lines that it is cut into. -/
theorem linesOf_iff : LinesOf text ls ↔ ls = lines text := by
  constructor
  · intro h
    induction h with
    | nil => rfl
    | last hne hno => rw [lines_of_not_mem hne hno]
    | ended hno _ ih => rw [lines_append_newline hno, ← ih]
  · rintro rfl
    exact linesOf_lines text

end Text

/-! ## Streams -/

namespace Event

theorem outOf_append (xs ys : List Event) : outOf (xs ++ ys) = outOf xs ++ outOf ys := by
  rw [outOf, List.map_append, String.join_append]
  rfl

theorem errOf_append (xs ys : List Event) : errOf (xs ++ ys) = errOf xs ++ errOf ys := by
  rw [errOf, List.map_append, String.join_append]
  rfl

theorem outOf_flatMap {α : Type} (f : α → List Event) (xs : List α) :
    outOf (xs.flatMap f) = String.join (xs.map fun x => outOf (f x)) := by
  induction xs with
  | nil => rfl
  | cons x xs ih => rw [List.flatMap_cons, outOf_append, ih, List.map_cons, String.join_cons]

theorem errOf_flatMap {α : Type} (f : α → List Event) (xs : List α) :
    errOf (xs.flatMap f) = String.join (xs.map fun x => errOf (f x)) := by
  induction xs with
  | nil => rfl
  | cons x xs ih => rw [List.flatMap_cons, errOf_append, ih, List.map_cons, String.join_cons]

end Event

/-! ## Prompts -/

namespace Session

theorem mode_run (s : Session) (source : String) : (s.run source).session.mode = s.mode := by
  obtain ⟨mode, held⟩ := s
  cases mode with
  | tokens => rfl
  | tree | reversePolish =>
      simp only [run]
      split <;> rfl

theorem eq_fresh {s : Session} (h : s.held = []) : s = fresh s.mode := by
  obtain ⟨mode, held⟩ := s
  rw [fresh, ← h]

/-- Whatever a source came to, a reset leaves a fresh session behind it. -/
theorem reset_run (mode : Mode) (source : String) :
    ((fresh mode).run source).session.reset = fresh mode := by
  rw [eq_fresh (s := ((fresh mode).run source).session.reset) rfl]
  exact congrArg fresh (mode_run (fresh mode) source)

/-- What a line gives out at a prompt that holds nothing: the prompt, and what a fresh session gives. -/
def lineEvents (mode : Mode) (line : List Char) : List Event :=
  .out promptText :: ((fresh mode).run (String.ofList line)).events

theorem outOf_lineEvents (mode : Mode) (line : List Char) :
    Event.outOf (lineEvents mode line) =
      "> " ++ Event.outOf ((fresh mode).run (String.ofList line)).events := by
  rw [lineEvents, Event.outOf, List.map_cons, String.join_cons]
  rfl

theorem errOf_lineEvents (mode : Mode) (line : List Char) :
    Event.errOf (lineEvents mode line) = Event.errOf ((fresh mode).run (String.ofList line)).events := by
  rw [lineEvents, Event.errOf, List.map_cons, String.join_cons]
  exact String.empty_append

/-- Lines that are run on a fresh session leave it fresh, and each is run as if it were alone. -/
theorem runLines_of_fresh (mode : Mode) (lines : List (List Char)) :
    (fresh mode).runLines lines =
      ⟨fresh mode, lines.flatMap (lineEvents mode) ++ [.out promptText, .out farewell]⟩ := by
  induction lines with
  | nil => rfl
  | cons line rest ih =>
      simp only [runLines, reset_run, ih, List.flatMap_cons, lineEvents, List.append_assoc,
        List.cons_append]

end Session

end LoxSyntax
