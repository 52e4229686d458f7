/-
# LoxSyntax.Proofs.Parse.Recovery -- recovery finds the next boundary, and comes to rest

The HORIZON of a cursor is the first end of the input from the cursor on. Parsing and synchronizing lead
AHEAD: they do not go back, they do not go past the horizon, and they do not bring a cursor to a place that
has another one. So wherever a cursor is brought to, it is in its sequence, and the horizon stays where it
is.

A parse may take nothing at all. What makes recovery end is that synchronization leaves the token at the
cursor behind whatever it is, and then rests at the least boundary: in front of the horizon, a round of both
always advances.
-/
import LoxSyntax.Parse.Parser
import LoxSyntax.Proofs.Parse.Language
import Mathlib.Logic.Function.Iterate
import Mathlib.Order.Bounds.Basic
import Mathlib.Tactic.IntervalCases

namespace LoxSyntax

/-! ## Boundaries -/

theorem Sequence.drop_toList {s : Sequence} {position : Nat} (h : position < s.length) :
    s.toList.drop position = s.get position :: s.toList.drop (position + 1) := by
  have hlt : position < s.toList.length := by rwa [Sequence.length_toList]
  have hget := Sequence.getElem?_toList s h
  rw [List.getElem?_eq_getElem hlt] at hget
  rw [List.drop_eq_getElem_cons hlt, Option.some.inj hget]

namespace Cursor

variable {limit : Option Nat} {c d : Cursor} {s : Sequence}

/-- Whether a place is a boundary is seen from the token there and the one before it. -/
theorem isBoundary_succ {k : Nat} :
    IsBoundary s (k + 1) ↔
      (s.get (k + 1)).isEnd = true ∨ (s.get k).kind ∈ Kind.statementEnds ∨
        (s.get (k + 1)).kind ∈ Kind.statementStarts := by
  simp [IsBoundary]

/-- Skipping stops at the least boundary behind a token. -/
theorem skip_isLeast {k : Nat} (h : k + 1 < s.length) :
    ∃ j, skip (s.get k) (s.toList.drop (k + 1)) = s.toList.drop j ∧ j < s.length ∧
      IsLeast {j | k < j ∧ IsBoundary s j} j := by
  -- on the number of tokens behind the place
  induction hn : s.length - k generalizing k with
  | zero => omega
  | succ n ih =>
      rw [Sequence.drop_toList h, skip]
      split
      · rename_i hstop
        rw [← Sequence.drop_toList h]
        refine ⟨k + 1, rfl, h, ⟨Nat.lt_succ_self k, isBoundary_succ.2 hstop⟩, ?_⟩
        rintro j ⟨hj, -⟩
        exact hj
      · rename_i hgo
        have hlt : k + 1 + 1 < s.length := by
          by_contra hge
          exact hgo (.inl (Sequence.isEnd_get (by omega)))
        obtain ⟨j, hskip, hj, ⟨hkj, hbound⟩, hleast⟩ := ih hlt (by omega)
        refine ⟨j, hskip, hj, ⟨by omega, hbound⟩, ?_⟩
        rintro i ⟨hi, hibound⟩
        -- `k + 1` is no boundary, so the least one is among those behind it
        have hne : i ≠ k + 1 := by
          rintro rfl
          exact hgo (isBoundary_succ.1 hibound)
        exact hleast ⟨by omega, hibound⟩

theorem rest_eq_cons (h : c.position < c.tokens.length) :
    c.rest = c.peek :: c.tokens.toList.drop (c.position + 1) :=
  Sequence.drop_toList h

theorem synchronize_of_isEnd (h : c.position < c.tokens.length) (hend : c.peek.isEnd = true) :
    c.synchronize = c := by
  rw [synchronize, rest_eq_cons h]
  exact if_pos hend

theorem synchronize_of_not_isEnd (h : c.position < c.tokens.length) (hend : c.peek.isEnd = false) :
    c.synchronize = c.moveTo (skip c.peek (c.tokens.toList.drop (c.position + 1))) := by
  rw [synchronize, rest_eq_cons h]
  exact if_neg (by simp [hend])

/-- In front of any other token, synchronization moves to the least boundary behind the cursor. -/
theorem synchronize_isLeast (h : c.position < c.tokens.length) (hend : c.peek.isEnd = false) :
    ∃ j, c.synchronize = { c with position := j } ∧
      IsLeast {j | c.position < j ∧ IsBoundary c.tokens j} j := by
  have hlt : c.position + 1 < c.tokens.length := by
    by_contra hge
    have hlast : c.peek.isEnd = true := Sequence.isEnd_get (by omega)
    rw [hend] at hlast
    cases hlast
  obtain ⟨j, hskip, hj, hleast⟩ := skip_isLeast hlt
  refine ⟨j, ?_, hleast⟩
  have hback : c.tokens.length - (c.tokens.length - j) = j := by omega
  rw [synchronize_of_not_isEnd h hend, peek, hskip, moveTo, List.length_drop, Sequence.length_toList, hback]

/-! ## The horizon -/

/-- The tokens from the cursor on, by their places in the sequence. -/
theorem getElem_rest {i : Nat} (h : i < c.rest.length) : c.rest[i] = c.tokens.get (c.position + i) := by
  have hlen := c.length_rest
  have hlt : c.position + i < c.tokens.length := by omega
  apply Option.some.inj
  rw [← List.getElem?_eq_getElem h, rest, List.getElem?_drop]
  exact Sequence.getElem?_toList _ hlt

theorem findIdx_lt_length_rest (h : c.position < c.tokens.length) :
    c.rest.findIdx Token.isEnd < c.rest.length := by
  obtain ⟨body, hbody⟩ := rest_eq_concat h
  rw [List.findIdx_lt_length]
  exact ⟨c.tokens.last, by rw [hbody]; simp, c.tokens.last_isEnd⟩

/-- The horizon is the first end of the input from the cursor on. -/
theorem horizon_isLeast (h : c.position < c.tokens.length) :
    IsLeast {k | c.position ≤ k ∧ (c.tokens.get k).isEnd = true} c.horizon := by
  have hexists := findIdx_lt_length_rest h
  refine ⟨⟨Nat.le_add_right _ _, ?_⟩, ?_⟩
  · show (c.tokens.get (c.position + _)).isEnd = true
    rw [← getElem_rest hexists]
    exact List.findIdx_getElem
  · rintro k ⟨hk, hend⟩
    by_contra hlt
    have hbefore : k - c.position < c.rest.findIdx Token.isEnd := by
      unfold horizon at hlt
      omega
    have hnot := List.not_of_lt_findIdx hbefore
    rw [getElem_rest (by omega), Nat.add_sub_cancel' hk, hend] at hnot
    cases hnot

theorem horizon_lt_length (h : c.position < c.tokens.length) : c.horizon < c.tokens.length := by
  have hlast : (c.tokens.get (c.tokens.length - 1)).isEnd = true := Sequence.isEnd_get (by omega)
  have hle : c.horizon ≤ c.tokens.length - 1 := (horizon_isLeast h).2 ⟨by omega, hlast⟩
  omega

theorem peek_isEnd_iff (h : c.position < c.tokens.length) :
    c.peek.isEnd = true ↔ c.position = c.horizon := by
  obtain ⟨⟨hle, hend⟩, hleast⟩ := horizon_isLeast h
  constructor
  · intro hpeek
    exact Nat.le_antisymm hle (hleast ⟨Nat.le_refl _, hpeek⟩)
  · intro heq
    rw [peek, heq]
    exact hend

/-- Behind the cursor and up to the horizon, the horizon is the only end of the input, so a boundary is
the horizon, or is seen from the tokens on its two sides. -/
theorem isBoundary_iff (h : c.position < c.tokens.length) {j : Nat} (hj : c.position < j)
    (hle : j ≤ c.horizon) :
    IsBoundary c.tokens j ↔ j = c.horizon ∨ (c.tokens.get (j - 1)).kind ∈ Kind.statementEnds ∨
      (c.tokens.get j).kind ∈ Kind.statementStarts := by
  obtain ⟨⟨_, hend⟩, hleast⟩ := horizon_isLeast h
  have hiff : (c.tokens.get j).isEnd = true ↔ j = c.horizon := by
    constructor
    · intro hjend
      exact Nat.le_antisymm hle (hleast ⟨Nat.le_of_lt hj, hjend⟩)
    · rintro rfl
      exact hend
  obtain ⟨k, rfl⟩ : ∃ k, j = k + 1 := ⟨j - 1, by omega⟩
  rw [isBoundary_succ, hiff, Nat.add_sub_cancel]

/-- In front of the horizon, synchronization moves to the first place behind the cursor that is the horizon,
or is right behind a token that ends a statement, or has a token that begins one. -/
theorem synchronize_isLeast_of_ne (h : c.position < c.tokens.length) (hne : c.position ≠ c.horizon) :
    ∃ j, c.synchronize = { c with position := j } ∧
      IsLeast {j | c.position < j ∧ j ≤ c.horizon ∧
        (j = c.horizon ∨ (c.tokens.get (j - 1)).kind ∈ Kind.statementEnds ∨
          (c.tokens.get j).kind ∈ Kind.statementStarts)} j := by
  have hend : c.peek.isEnd = false := by
    rw [Bool.eq_false_iff]
    intro hend
    exact hne ((peek_isEnd_iff h).1 hend)
  obtain ⟨j, hsync, ⟨hj, hbound⟩, hleast⟩ := synchronize_isLeast h hend
  obtain ⟨⟨hle, hhorizon⟩, _⟩ := horizon_isLeast h
  -- the horizon is a boundary itself
  have hjle : j ≤ c.horizon := by
    apply hleast
    exact ⟨Nat.lt_of_le_of_ne hle hne, .inl hhorizon⟩
  refine ⟨j, hsync, ⟨hj, hjle, (isBoundary_iff h hj hjle).1 hbound⟩, ?_⟩
  rintro i ⟨hi, hile, hseen⟩
  apply hleast
  exact ⟨hi, (isBoundary_iff h hi hile).2 hseen⟩

/-- A place between a cursor and its horizon, in the same sequence. -/
structure Ahead (c d : Cursor) : Prop where
  tokens : d.tokens = c.tokens
  le_position : c.position ≤ d.position
  position_le : d.position ≤ c.horizon

theorem Ahead.lt_length (h : Ahead c d) (hc : c.position < c.tokens.length) :
    d.position < d.tokens.length := by
  rw [h.tokens]
  exact Nat.lt_of_le_of_lt h.position_le (horizon_lt_length hc)

/-- Between a cursor and its horizon there is no other horizon. -/
theorem Ahead.horizon_eq (h : Ahead c d) (hc : c.position < c.tokens.length) :
    d.horizon = c.horizon := by
  obtain ⟨⟨_, hend⟩, hleast⟩ := horizon_isLeast hc
  refine (horizon_isLeast (h.lt_length hc)).unique ⟨⟨h.position_le, ?_⟩, ?_⟩
  · rw [h.tokens]
    exact hend
  · rintro k ⟨hk, hkend⟩
    rw [h.tokens] at hkend
    exact hleast ⟨Nat.le_trans h.le_position hk, hkend⟩

theorem Ahead.refl (h : c.position < c.tokens.length) : Ahead c c :=
  ⟨rfl, Nat.le_refl _, (horizon_isLeast h).1.1⟩

theorem Ahead.trans {e : Cursor} (h : Ahead c d) (h' : Ahead d e) (hc : c.position < c.tokens.length) :
    Ahead c e := by
  refine ⟨h'.tokens.trans h.tokens, Nat.le_trans h.le_position h'.le_position, ?_⟩
  rw [← h.horizon_eq hc]
  exact h'.position_le

/-! ## Rounds of recovery -/

/-- A parse takes no end of the input, so it stays in front of the horizon. -/
theorem ahead_parse (limit : Option Nat) (h : c.position < c.tokens.length) :
    Ahead c (c.parse limit).2 := by
  obtain ⟨taken, last, t, v, hattempt⟩ := Parse.exists_attempt limit h
  rw [hattempt.parse_eq]
  refine ⟨rfl, Nat.le_add_right _ _, ?_⟩
  obtain ⟨more, hrest⟩ := hattempt.rest
  show c.position + taken.length ≤ c.position + c.rest.findIdx Token.isEnd
  rw [hrest, List.findIdx_append, List.findIdx_eq_length_of_false hattempt.takes.not_isEnd]
  simp

/-- In front of the horizon a synchronization leaves the token at the cursor behind. -/
theorem ahead_synchronize (h : c.position < c.tokens.length) :
    Ahead c c.synchronize ∧ (c.position < c.horizon → c.position < c.synchronize.position) := by
  by_cases heq : c.position = c.horizon
  · rw [synchronize_of_isEnd h ((peek_isEnd_iff h).2 heq)]
    refine ⟨.refl h, ?_⟩
    intro hlt
    exact absurd heq (Nat.ne_of_lt hlt)
  · obtain ⟨j, hsync, ⟨hj, hjle, _⟩, _⟩ := synchronize_isLeast_of_ne h heq
    rw [hsync]
    exact ⟨⟨rfl, Nat.le_of_lt hj, hjle⟩, fun _ => hj⟩

/-- Whatever is parsed and synchronized, the sequence stays the same, and the cursor stays in front of the
horizon. -/
theorem Reaches.ahead (h : Reaches limit c d) (hc : c.position < c.tokens.length) : Ahead c d := by
  induction h with
  | refl => exact .refl hc
  | parse _ ih => exact ih.trans (ahead_parse limit (ih.lt_length hc)) hc
  | synchronize _ ih => exact ih.trans (ahead_synchronize (ih.lt_length hc)).1 hc

theorem Reaches.lt_length (h : Reaches limit c d) (hc : c.position < c.tokens.length) :
    d.tokens = c.tokens ∧ d.position < d.tokens.length :=
  ⟨(h.ahead hc).tokens, (h.ahead hc).lt_length hc⟩

theorem ahead_round (limit : Option Nat) (h : c.position < c.tokens.length) :
    Ahead c (c.round limit) ∧ (c.position < c.horizon → c.position < (c.round limit).position) := by
  have hparse := ahead_parse limit h
  obtain ⟨hsync, hstrict⟩ := ahead_synchronize (hparse.lt_length h)
  refine ⟨hparse.trans hsync h, ?_⟩
  intro hlt
  -- the parse may have come to the horizon already
  have hle := hparse.le_position
  have hround : (c.parse limit).2.position ≤ (c.round limit).position := hsync.le_position
  rw [hparse.horizon_eq h] at hstrict
  rcases Nat.lt_or_ge (c.parse limit).2.position c.horizon with hfront | hreached
  · exact Nat.lt_of_le_of_lt hle (hstrict hfront)
  · omega

theorem ahead_iterate (limit : Option Nat) (h : c.position < c.tokens.length) (k : Nat) :
    Ahead c ((round limit)^[k] c) ∧ min (c.position + k) c.horizon ≤ ((round limit)^[k] c).position := by
  induction k with
  | zero => exact ⟨.refl h, Nat.min_le_left _ _⟩
  | succ k ih =>
      obtain ⟨hahead, hmin⟩ := ih
      obtain ⟨hround, hstrict⟩ := ahead_round limit (hahead.lt_length h)
      rw [hahead.horizon_eq h] at hstrict
      rw [Function.iterate_succ_apply']
      refine ⟨hahead.trans hround h, ?_⟩
      have hle := hround.le_position
      omega

end Cursor

/-! ## Parsers -/

namespace Parser

/-- A round of recovery: an attempt to parse, and the way to the next place to try. -/
def round (limit : Option Nat) (p : Parser) : Parser := (p.parse limit).2.synchronize

/-- Where a parser goes does not depend on what it has reported. -/
theorem cursor_parse (limit : Option Nat) (p : Parser) :
    (p.parse limit).2.cursor = (p.cursor.parse limit).2 := by
  rw [parse]
  split <;> rename_i heq <;> rw [heq]

theorem cursor_round (limit : Option Nat) (p : Parser) :
    (p.round limit).cursor = p.cursor.round limit := by
  rw [round, Cursor.round, ← cursor_parse]
  rfl

theorem cursor_iterate (limit : Option Nat) (p : Parser) (k : Nat) :
    ((round limit)^[k] p).cursor = (Cursor.round limit)^[k] p.cursor := by
  induction k with
  | zero => rfl
  | succ k ih => rw [Function.iterate_succ_apply', Function.iterate_succ_apply', cursor_round, ih]

/-- Synchronization stays at an end of the input; from any other token it moves to the least place behind
the cursor that is the first end of the input `f`, or right behind a semicolon, or in front of a word that
begins a statement. It reports nothing and changes no token. So rounds of parsing and synchronizing,
whether the parses succeed or not, advance until they rest at `f`, after `f - c` rounds at the latest. -/
theorem synchronize_finds_next_boundary (limit : Option Nat) (p : Parser)
    (h : p.cursor.position < p.cursor.tokens.length) :
    ∃ f, IsLeast {k | p.cursor.position ≤ k ∧ (p.cursor.tokens.get k).kind = .endOfInput} f ∧
      (p.cursor.position = f → p.synchronize = p) ∧
      (p.cursor.position ≠ f → ∃ j, p.synchronize = ⟨⟨p.cursor.tokens, j⟩, p.reporter⟩ ∧
        IsLeast {j | p.cursor.position < j ∧ j ≤ f ∧
          (j = f ∨ (p.cursor.tokens.get (j - 1)).kind = .semicolon ∨
            (p.cursor.tokens.get j).kind ∈ [.keyword .classWord, .keyword .funWord, .keyword .varWord,
              .keyword .forWord, .keyword .ifWord, .keyword .whileWord, .keyword .printWord,
              .keyword .returnWord])} j) ∧
      (∀ k, ((round limit)^[k] p).cursor.tokens = p.cursor.tokens ∧
        ((round limit)^[k] p).cursor.position ≤ f ∧
        (((round limit)^[k] p).cursor.position < f →
          ((round limit)^[k] p).cursor.position < ((round limit)^[k + 1] p).cursor.position)) ∧
      ∀ k, f - p.cursor.position ≤ k → ((round limit)^[k] p).cursor.position = f := by
  have hleast := Cursor.horizon_isLeast h
  refine ⟨p.cursor.horizon, ?_, ?_, ?_, ?_, ?_⟩
  · simpa [Token.isEnd] using hleast
  · intro heq
    rw [synchronize, Cursor.synchronize_of_isEnd h ((Cursor.peek_isEnd_iff h).2 heq)]
  · intro hne
    obtain ⟨j, hsync, hboundary⟩ := Cursor.synchronize_isLeast_of_ne h hne
    refine ⟨j, by rw [synchronize, hsync], ?_⟩
    rw [Kind.statementEnds] at hboundary
    simp only [List.mem_singleton] at hboundary
    exact hboundary
  · intro k
    obtain ⟨hahead, _⟩ := Cursor.ahead_iterate limit h k
    obtain ⟨_, hstrict⟩ := Cursor.ahead_round limit (hahead.lt_length h)
    rw [Function.iterate_succ_apply', cursor_round, cursor_iterate]
    refine ⟨hahead.tokens, hahead.position_le, ?_⟩
    rwa [hahead.horizon_eq h] at hstrict
  · intro k hk
    obtain ⟨hahead, hmin⟩ := Cursor.ahead_iterate limit h k
    have hle := hahead.position_le
    rw [cursor_iterate]
    omega

/-- The first synchronization passes over an operator and a literal and comes to rest behind the semicolon,
and rounds end at the first of two ends of the input. -/
theorem synchronize_rests_behind_semicolon :
    let tokens : Sequence := ⟨[.bare .star, .bare (.keyword .nilWord), .bare .semicolon,
      .bare (.keyword .printWord), .bare (.keyword .nilWord), .bare .endOfInput,
      .bare (.keyword .varWord)], .bare .endOfInput, rfl⟩
    let p : Parser := .start tokens (.empty false)
    p.cursor.position < p.cursor.tokens.length ∧
      p.synchronize = ⟨⟨tokens, 3⟩, p.reporter⟩ ∧
      ∀ k, 5 ≤ k → ((round Parse.defaultLimit)^[k] p).cursor.position = 5 := by
  intro tokens p
  have hlt : p.cursor.position < p.cursor.tokens.length := by decide
  obtain ⟨f, ⟨⟨_, hend⟩, hfirst⟩, _, hmove, _, hrest⟩ :=
    synchronize_finds_next_boundary Parse.defaultLimit p hlt
  have hf : f = 5 := by
    have hle : f ≤ 5 := hfirst ⟨by decide, rfl⟩
    interval_cases f <;> first | rfl | cases hend
  subst hf
  obtain ⟨j, hsync, ⟨hj, _, hseen⟩, hleast⟩ := hmove (by decide)
  have hj3 : j = 3 := by
    have hle : j ≤ 3 := hleast ⟨by decide, by decide, .inr (.inl rfl)⟩
    have hpos : 0 < j := hj
    interval_cases j
    · revert hseen; decide
    · revert hseen; decide
    · rfl
  subst hj3
  exact ⟨hlt, hsync, hrest⟩

end Parser

end LoxSyntax
