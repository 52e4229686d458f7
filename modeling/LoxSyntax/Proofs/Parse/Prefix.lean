/-
# LoxSyntax.Proofs.Parse.Prefix -- what a state has read

The frames of a stack are the unfinished part of an expression, and `Begun` relates a stack to the tokens
that began it: it says of each binary operator that its left operand is a canonical tree that binds
tightly enough, and of the frame below it that it will accept what the operator makes. An operand that is
held behind a stack stands for the tokens after those (`Holds`).

`Reads` puts the two together for a state. The start has read nothing, a move reads one more token
(`Reads.move`), so a run has read what it has taken (`Reads.takes`). Closing reads nothing, which is why
the verdict `complete` is the tree of exactly the tokens taken (`Reads.complete`).
-/
import LoxSyntax.Proofs.Parse.Yield

namespace LoxSyntax

namespace Parse

/-! ## The relations -/

/-- A stack of frames is begun by a list of tokens. -/
inductive Begun : List Frame → List Token → Prop where
  | nil : Begun [] []
  | unary {stack : List Frame} {tokens : List Token} {operator : Token} :
      Begun stack tokens → operator.kind.isUnary = true →
      Begun (.unary operator :: stack) (tokens ++ [operator])
  | binary {stack : List Frame} {before operand : List Token} {left : Expr} {operator : Token}
      {level : Level} :
      Begun stack before → left.Yields operand → left.Canonical →
      operator.kind.level? = some level → level.rank ≤ left.level.rank → Fits stack level.rank →
      Begun (.binary left operator :: stack) (before ++ operand ++ [operator])
  | group {stack : List Frame} {tokens : List Token} {open' : Token} :
      Begun stack tokens → open'.kind = .leftParen → Begun (.group :: stack) (tokens ++ [open'])

/-- A stack with an operand behind it is what a list of tokens has been read as. -/
inductive Holds (stack : List Frame) (e : Expr) : List Token → Prop where
  | intro {before operand : List Token} :
      Begun stack before → e.Yields operand → e.Canonical → Fits stack e.level.rank →
      Holds stack e (before ++ operand)

/-- A state is what a list of tokens has been read as. What it holds has just been completed, so it is a
literal or a grouping. -/
inductive Reads : State → List Token → Prop where
  | wanting {stack : List Frame} {tokens : List Token} : Begun stack tokens → Reads ⟨stack, none⟩ tokens
  | holding {stack : List Frame} {e : Expr} {tokens : List Token} :
      Holds stack e tokens → e.level = .primary → Reads ⟨stack, some e⟩ tokens

variable {stack : List Frame} {e left : Expr} {operator t : Token} {tokens taken : List Token}
  {rank : Nat} {limit : Option Nat} {s s' : State}

/-! ## Closing a frame -/

theorem Holds.close_unary (h : Holds (.unary operator :: stack) e tokens) :
    Holds stack (.unary operator e) tokens := by
  cases h with | @intro _ operand hbegun hy hc hfits =>
  cases hbegun with
  | @unary _ before _ hbegun hunary =>
      rw [List.append_assoc, List.singleton_append]
      have hrank : Level.unary.rank ≤ e.level.rank := by simpa [Frame.demand] using hfits
      exact .intro hbegun (.unary hy) ⟨hunary, hrank, hc⟩ (fits_unary stack)

theorem Holds.close_binary (h : Holds (.binary left operator :: stack) e tokens) :
    Holds stack (.binary left operator e) tokens := by
  cases h with | @intro _ right hbegun hy hc hfits =>
  cases hbegun with
  | @binary _ before operand _ _ level hbegun hyl hcl hlevel hle hbelow =>
      rw [List.append_assoc, List.append_assoc, List.singleton_append]
      rw [fits_cons, demand_binary hlevel] at hfits
      have hbelow' : Fits stack (Expr.binary left operator e).level.rank := by
        rw [Expr.level_binary hlevel]
        exact hbelow
      exact .intro hbegun (.binary hyl hy) ⟨⟨level, hlevel, hle, hfits⟩, hcl, hc⟩ hbelow'

theorem Holds.close_group (h : Holds (.group :: stack) e tokens) (close : Token)
    (hclose : close.kind = .rightParen) : Holds stack (.grouping e) (tokens ++ [close]) := by
  cases h with | @intro _ inner hbegun hy hc _ =>
  cases hbegun with
  | @group _ before open' hbegun hopen =>
      rw [List.append_assoc, List.append_assoc, List.singleton_append]
      exact .intro hbegun (.grouping hopen hy hclose) hc (fits_primary stack)

/-- Closing reads nothing. It leaves an operand that still binds as tightly as the rank, behind a stack
that accepts such an operand. -/
theorem Holds.closeFrom (h : Holds stack e tokens) (hrank : rank ≤ e.level.rank)
    (hle : rank ≤ Level.unary.rank) :
    Holds (closeFrom rank stack e).1 (closeFrom rank stack e).2 tokens ∧
      rank ≤ (closeFrom rank stack e).2.level.rank ∧ Fits (closeFrom rank stack e).1 rank := by
  -- the tokens stay the same while the operand grows from frame to frame
  induction stack generalizing e with
  | nil => exact ⟨h, hrank, fits_nil _⟩
  | cons frame stack ih =>
      cases frame with
      | group => exact ⟨h, hrank, by simp [Parse.closeFrom, Frame.level?, Frame.demand]⟩
      | unary operator =>
          rw [closeFrom_unary hle]
          exact ih h.close_unary hle
      | binary left operator =>
          have hlevel : ∃ level, operator.kind.level? = some level := by
            obtain ⟨hbegun, _, _, _⟩ := h
            cases hbegun with
            | binary _ _ _ hlevel _ _ => exact ⟨_, hlevel⟩
          obtain ⟨level, hlevel⟩ := hlevel
          by_cases hclose : rank ≤ level.rank
          · rw [closeFrom_binary hlevel hclose]
            refine ih h.close_binary ?_
            rw [Expr.level_binary hlevel]
            exact hclose
          · have hstay : Parse.closeFrom rank (.binary left operator :: stack) e =
                (.binary left operator :: stack, e) := by
              simp [Parse.closeFrom, Frame.level?, hlevel, hclose]
            rw [hstay]
            refine ⟨h, hrank, ?_⟩
            rw [fits_cons, demand_binary hlevel]
            omega

/-- What is left open by closing everything is an open parenthesis or nothing. -/
theorem Begun.eq_nil_or_group (h : Begun stack tokens) (hfits : Fits stack 0) :
    stack = [] ∨ ∃ outer, stack = .group :: outer := by
  cases h with
  | nil => exact .inl rfl
  | group _ _ => exact .inr ⟨_, rfl⟩
  | unary _ _ => exact absurd hfits (by simp [Frame.demand, Level.rank])
  | binary _ _ _ hlevel _ _ => exact absurd hfits (by simp [demand_binary hlevel])

theorem Holds.begun (h : Holds stack e tokens) : ∃ before, Begun stack before := by
  obtain ⟨hbegun, _, _, _⟩ := h
  exact ⟨_, hbegun⟩

/-- An operand behind no frame is the tree of all the tokens. -/
theorem Holds.whole (h : Holds [] e tokens) : e.Yields tokens ∧ e.Canonical := by
  obtain ⟨hbegun, hy, hc, _⟩ := h
  cases hbegun with
  | nil => exact ⟨hy, hc⟩

/-! ## Moves and runs -/

theorem reads_start : Reads .start [] := .wanting .nil

theorem primary_rank_of_level (h : e.level = .primary) (hle : rank ≤ Level.unary.rank) :
    rank ≤ e.level.rank := by
  rw [h]
  exact Nat.le_trans hle (by decide)

/-- A move reads the token that it takes. -/
theorem Reads.move (h : Reads s tokens) (hm : Move limit s t s') : Reads s' (tokens ++ [t]) := by
  cases hm with
  | operand hv =>
      cases h with
      | wanting hbegun => exact .holding (.intro hbegun (.literal hv) trivial (fits_primary _)) rfl
  | sign hunary _ =>
      cases h with
      | wanting hbegun => exact .wanting (.unary hbegun hunary)
  | opening hopen _ =>
      cases h with
      | wanting hbegun => exact .wanting (.group hbegun hopen)
  | @operator stack outer e left t level hlevel hclosed =>
      cases h with
      | holding hholds hprimary =>
          have hle : level.rank ≤ Level.unary.rank := Nat.le_of_lt (Kind.level?_rank_lt hlevel)
          -- closing first is what makes the left operand bind tightly enough
          obtain ⟨hleft, hrank, hfits⟩ := hholds.closeFrom (primary_rank_of_level hprimary hle) hle
          rw [hclosed] at hleft hrank hfits
          obtain ⟨hbegun, hy, hc, _⟩ := hleft
          exact .wanting (.binary hbegun hy hc hlevel hrank hfits)
  | @closing stack outer e inner t hclose hclosed =>
      cases h with
      | holding hholds _ =>
          obtain ⟨hinner, _, _⟩ := hholds.closeFrom (Nat.zero_le _) (Nat.zero_le _)
          rw [hclosed] at hinner
          exact .holding (hinner.close_group _ hclose) rfl

/-- A run reads the tokens that it takes. -/
theorem Reads.takes (htakes : Takes limit s taken s') (h : Reads s tokens) :
    Reads s' (tokens ++ taken) := by
  induction htakes generalizing tokens with
  | nil => simpa using h
  | cons hm _ ih =>
      have hnext := ih (h.move hm)
      rwa [List.append_assoc, List.singleton_append] at hnext

theorem reads_of_takes (htakes : Takes limit .start taken s) : Reads s taken := by
  simpa using Reads.takes htakes reads_start

/-- A parse is complete only with the tree of the tokens that were taken, and it ends before a token that
is no binary operator. -/
theorem Reads.complete (h : Reads s tokens) (hs : Stop limit s t (.complete e)) :
    e.Yields tokens ∧ e.Canonical ∧ t.kind.level? = none := by
  cases hs with
  | @whole stack outer last whole t hlevel hclosed hno =>
      cases h with
      | holding hholds _ =>
          obtain ⟨hwhole, _, hfits⟩ := hholds.closeFrom (Nat.zero_le _) (Nat.zero_le _)
          rw [hclosed] at hwhole hfits
          obtain ⟨before, hbegun⟩ := hwhole.begun
          rcases hbegun.eq_nil_or_group hfits with hnil | ⟨below, hgroup⟩
          · replace hnil : outer = [] := hnil
            subst hnil
            exact ⟨hwhole.whole.1, hwhole.whole.2, hlevel⟩
          · exact absurd hgroup (hno below)

theorem Attempt.complete {c : Cursor} {last : State} (h : Attempt limit c taken last t (.complete e)) :
    e.Yields taken ∧ e.Canonical ∧ t.kind.level? = none :=
  (reads_of_takes h.takes).complete h.stop

end Parse

end LoxSyntax
