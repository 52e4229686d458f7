/-
# LoxSyntax.Proofs.Parse.Locality -- a parse depends on the tokens in its window alone

The WINDOW of a cursor are the tokens from the cursor through the first end of the input. A parse takes no
end of the input, so the token that it stops in front of is in the window, and what it takes stands before
that token. The window is a sequence of its own (`exists_sequence_of_window`), and the attempt at the cursor
is the attempt at the first token of that sequence (`Attempt.windowed`). So a parser that has come to a place,
whatever it has parsed and reported on the way, parses there like a fresh parser of the window.
-/
import LoxSyntax.Proofs.Parse.Recovery

namespace LoxSyntax

/-! ## Parsers that have been used -/

/-- One parser can be brought to another by parsing and synchronizing. -/
inductive Parser.Reaches (limit : Option Nat) : Parser → Parser → Prop where
  | refl (p : Parser) : Reaches limit p p
  | parse {p q : Parser} : Reaches limit p q → Reaches limit p (q.parse limit).2
  | synchronize {p q : Parser} : Reaches limit p q → Reaches limit p q.synchronize

theorem Parser.Reaches.cursor {limit : Option Nat} {p q : Parser} (h : Reaches limit p q) :
    Cursor.Reaches limit p.cursor q.cursor := by
  induction h with
  | refl => exact .refl _
  | parse _ ih =>
      rw [cursor_parse]
      exact .parse ih
  | synchronize _ ih => exact .synchronize ih

/-! ## Windows -/

namespace Cursor

variable {c : Cursor}

/-- The window by the places of its first and its last token. -/
theorem window_eq_slice (c : Cursor) :
    c.window = (c.tokens.toList.drop c.position).take (c.horizon + 1 - c.position) := by
  have hcount : c.horizon + 1 - c.position = c.rest.findIdx Token.isEnd + 1 := by
    unfold horizon
    omega
  rw [hcount, window, rest]

/-- An end of the input closes the window. -/
theorem exists_sequence_of_window (h : c.position < c.tokens.length) : ∃ w : Sequence, w.toList = c.window := by
  have hlt := findIdx_lt_length_rest h
  exact ⟨⟨c.rest.take (c.rest.findIdx Token.isEnd), c.rest[c.rest.findIdx Token.isEnd], List.findIdx_getElem⟩,
    (List.take_succ_eq_append_getElem hlt).symm⟩

end Cursor

namespace Parse

variable {limit : Option Nat} {c : Cursor} {taken : List Token} {last : State} {t : Token} {v : Verdict}

/-- What is taken from a cursor, and the token that is not, are in the window. -/
theorem Attempt.window (h : Attempt limit c taken last t v) : ∃ more, c.window = taken ++ t :: more := by
  obtain ⟨more, hrest⟩ := h.rest
  have hindex : c.rest.findIdx Token.isEnd = taken.length + (t :: more).findIdx Token.isEnd := by
    rw [hrest, List.findIdx_append, List.findIdx_eq_length_of_false h.takes.not_isEnd]
    simp [Nat.add_comm]
  refine ⟨more.take ((t :: more).findIdx Token.isEnd), ?_⟩
  rw [Cursor.window, hindex, Nat.add_assoc, hrest, List.take_length_add_append, List.take_succ_cons]

/-- An attempt at a cursor is the attempt at the first token of the window. -/
theorem Attempt.windowed (h : Attempt limit c taken last t v) {w : Sequence} (hw : w.toList = c.window) :
    Attempt limit (.start w) taken last t v := by
  obtain ⟨more, hwindow⟩ := h.window
  exact ⟨⟨more, hw.trans hwindow⟩, h.takes, h.stop⟩

end Parse

namespace Parser

open Parse

/-- Parsing is local, and knows no history. Wherever a parser has come to by parsing and synchronizing, let
`c` be its place and `f` the first end of the input from there on. The tokens from `c` through `f` can be
parsed by themselves, and the next parse comes to what a fresh parser of these tokens comes to: it gives the
same tree or none, it adds the same diagnostics behind those held, and it advances as far. -/
theorem parse_eq_fresh_parse_of_window (limit : Option Nat) (s : Sequence) (r : Reporter) (p : Parser)
    (hreach : Reaches limit (.start s r) p) :
    ∃ f w, IsLeast {k | p.cursor.position ≤ k ∧ (s.get k).kind = .endOfInput} f ∧ f < s.length ∧
      Sequence.ofList? ((s.toList.drop p.cursor.position).take (f + 1 - p.cursor.position)) = some w ∧
      ∀ echoes,
        let fresh := (start w (.empty echoes)).parse limit
        let next := p.parse limit
        next.1 = fresh.1 ∧ next.2.reporter = p.reporter.reportAll fresh.2.reporter.held ∧
          next.2.cursor = ⟨s, p.cursor.position + fresh.2.cursor.position⟩ := by
  obtain ⟨htokens, hposition⟩ := hreach.cursor.lt_length (Nat.succ_pos _)
  replace htokens : p.cursor.tokens = s := htokens
  obtain ⟨w, hw⟩ := Cursor.exists_sequence_of_window hposition
  have hleast := Cursor.horizon_isLeast hposition
  have hlt := Cursor.horizon_lt_length hposition
  have hslice := p.cursor.window_eq_slice
  obtain ⟨taken, last, t, v, hattempt⟩ := exists_attempt limit hposition
  have hparse := hattempt.parse_eq
  have hfresh := (hattempt.windowed hw).parse_eq
  rw [htokens] at hleast hlt hslice
  refine ⟨p.cursor.horizon, w, by simpa [Token.isEnd] using hleast, hlt, ?_, ?_⟩
  · rw [← hslice, ← hw, Sequence.ofList?_toList]
  · intro echoes
    have hcursor : (start w (.empty echoes)).cursor = .start w := rfl
    -- the verdict and the number of tokens taken settle all that is compared
    simp only [parse, hparse, hcursor, hfresh]
    cases v with
    | complete e =>
        refine ⟨rfl, ?_, ?_⟩
        · simp [Verdict.answer, Reporter.reportAll, start, Reporter.empty]
        · simp [Verdict.answer, Cursor.forward, Cursor.start, htokens]
    | rejected cause =>
        refine ⟨rfl, ?_, ?_⟩
        · simp [Verdict.answer, Reporter.reportAll, Reporter.report, start, Reporter.empty]
        · simp [Verdict.answer, Cursor.forward, Cursor.start, htokens]

/-- The tokens of `* ; (nil`, an end of the input, and `)`: a parser that has reported the star and has come
to the parenthesis parses there like a fresh parser of three tokens, which misses the closing parenthesis. -/
theorem parenthesis_behind_end_is_not_seen :
    let s : Sequence := ⟨[.bare .star, .bare .semicolon, .bare .leftParen, .bare (.keyword .nilWord),
      .bare .endOfInput, .bare .rightParen], .bare .endOfInput, rfl⟩
    let w : Sequence := ⟨[.bare .leftParen, .bare (.keyword .nilWord)], .bare .endOfInput, rfl⟩
    let p := (round Parse.defaultLimit (.start s (.empty false)))
    let fresh := (start w (.empty false)).parse Parse.defaultLimit
    Reaches Parse.defaultLimit (.start s (.empty false)) p ∧ p.cursor.position = 2 ∧ p.reporter.held.length = 1 ∧
      fresh.1 = none ∧ fresh.2.reporter.held.length = 1 ∧
      (p.parse Parse.defaultLimit).1 = none ∧
      (p.parse Parse.defaultLimit).2.reporter = p.reporter.reportAll fresh.2.reporter.held ∧
      (p.parse Parse.defaultLimit).2.cursor = ⟨s, 4⟩ := by
  intro s w p fresh
  have hreach : Reaches Parse.defaultLimit (.start s (.empty false)) p := .synchronize (.parse (.refl _))
  have hposition : p.cursor.position = 2 := rfl
  obtain ⟨f, w', ⟨⟨_, hend⟩, hfirst⟩, _, hwindow, hsame⟩ :=
    parse_eq_fresh_parse_of_window Parse.defaultLimit s (.empty false) p hreach
  have hf : f = 4 := by
    have hle : f ≤ 4 := hfirst ⟨by decide, rfl⟩
    interval_cases f <;> first | rfl | cases hend
  subst hf
  obtain rfl : w = w' := Option.some.inj (Eq.trans rfl hwindow)
  obtain ⟨htree, hreporter, hcursor⟩ := hsame false
  exact ⟨hreach, hposition, rfl, rfl, rfl, htree, hreporter, hcursor⟩

end Parser

end LoxSyntax
