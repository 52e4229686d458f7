/-
# LoxSyntax.Proofs.Parse.Nesting -- nesting, and only nesting, makes a parse be given up

At each moment of a parse some parentheses are not closed yet, and some signs wait for an operand that is
not complete yet. What these cost is the OPEN COST of a state (`State.openCost`). Binary operators cost
nothing, so a chain of them can be of any length.

A parse with a bound looks at the cost of its stack only when it begins a frame. That is enough: no other
move makes a stack cost more, so the peak of a parse without a bound is the greatest open cost of the states
it passes through (`peak_le_iff`). Up to the peak the two parses agree. A bound below the peak is exceeded by
some frame, and the parse ends there, whatever stands further right (`verdict_of_not_affordable`).
-/
import LoxSyntax.Parse.Parser
import LoxSyntax.Proofs.Parse.Run

namespace LoxSyntax

namespace Parse

variable {limit : Option Nat} {s s' : State} {t : Token} {tokens taken rest : List Token}
  {stack stack' : List Frame} {e e' : Expr} {rank n : Nat}

/-! ## The cost of a moment -/

def Frame.isSign : Frame → Bool
  | .unary _ => true
  | .binary _ _ | .group => false

/-- What the parentheses that are not closed yet cost, and the signs whose operand is not complete yet. The
operand that is held completes the signs right in front of it. -/
def State.openCost (s : State) : Nat :=
  match s.held with
  | none => cost s.stack
  | some _ => cost (s.stack.dropWhile Frame.isSign)

/-- A parse of the tokens without a bound passes through a state. -/
def PassesThrough (tokens : List Token) (s : State) : Prop :=
  ∃ taken, taken <+: tokens ∧ Takes none .start taken s

/-- Operands with binary operators between them. -/
inductive IsChain : List Token → Prop where
  | operand {t : Token} : t.operand?.isSome = true → IsChain [t]
  | link {t operator : Token} {rest : List Token} :
      t.operand?.isSome = true → operator.kind.level?.isSome = true → IsChain rest →
      IsChain (t :: operator :: rest)

/-! ## What a move does to the cost -/

theorem cost_le_of_suffix (h : stack <:+ stack') : cost stack ≤ cost stack' := by
  obtain ⟨inner, rfl⟩ := h
  induction inner with
  | nil => exact Nat.le_refl _
  | cons frame inner ih => exact Nat.le_trans ih (Nat.le_add_left _ _)

/-- Closing takes frames off the stack, and puts none on it. -/
theorem closeFrom_suffix (rank : Nat) (stack : List Frame) (e : Expr) : (closeFrom rank stack e).1 <:+ stack := by
  induction stack generalizing e with
  | nil => exact List.suffix_refl _
  | cons frame stack ih =>
      have hcloses := (ih (frame.close e)).trans (List.suffix_cons frame stack)
      unfold closeFrom
      split
      · split
        · exact hcloses
        · exact List.suffix_refl _
      · exact List.suffix_refl _

theorem cost_le_of_closeFrom (h : closeFrom rank stack e = (stack', e')) : cost stack' ≤ cost stack := by
  have hsuffix := closeFrom_suffix rank stack e
  rw [h] at hsuffix
  exact cost_le_of_suffix hsuffix

/-- Only a sign or an opening parenthesis makes a stack cost more, and a bound that is exceeded by it stops
the parse there. -/
theorem Move.stop_of_not_within (h : Move none s t s') (hw : Within limit s.stack)
    (hnot : ¬ Within limit s'.stack) : Stop limit s t (.rejected .nestedTooDeeply) := by
  have hmono : cost s'.stack ≤ cost s.stack → Within limit s'.stack :=
    fun hle n hn => Nat.le_trans hle (hw n hn)
  cases h with
  | operand _ => exact absurd hw hnot
  | sign hunary _ => exact .tooDeep (.inl ⟨hunary, rfl⟩) hnot
  | opening hopen _ => exact .tooDeep (.inr ⟨hopen, rfl⟩) hnot
  | operator _ hclosed =>
      refine absurd (hmono ?_) hnot
      exact Nat.le_trans (Nat.le_of_eq (Nat.zero_add _)) (cost_le_of_closeFrom hclosed)
  | closing _ hclosed =>
      refine absurd (hmono ?_) hnot
      exact Nat.le_trans (Nat.le_add_left _ _) (cost_le_of_closeFrom hclosed)

/-! ## The peak of a parse -/

theorem State.wanted_le_openCost (s : State) : peak.wanted s ≤ s.openCost := by
  obtain ⟨stack, _ | e⟩ := s
  · exact Nat.le_refl _
  · exact Nat.zero_le _

theorem State.openCost_le (s : State) : s.openCost ≤ cost s.stack := by
  obtain ⟨stack, _ | e⟩ := s
  · exact Nat.le_refl _
  · exact cost_le_of_suffix (List.dropWhile_suffix _)

theorem peak_cons_of_move (hm : Move none s t s') (rest : List Token) :
    peak s (t :: rest) = max (peak.wanted s) (peak s' rest) := by
  rw [peak, hm.step_eq]

theorem peak_of_stop {v : Verdict} (hs : Stop none s t v) (rest : List Token) :
    peak s (t :: rest) = peak.wanted s := by
  rw [peak, hs.step_eq]

/-- A move comes to a state that is measured, or to one whose stack costs no more. -/
theorem Move.cost_le (h : Move limit s t s') : cost s'.stack ≤ max (cost s.stack) (peak.wanted s') := by
  cases h with
  | operand _ => exact Nat.le_max_left _ _
  | sign _ _ | opening _ _ | operator _ _ => exact Nat.le_max_right _ _
  | closing _ hclosed =>
      refine Nat.le_trans ?_ (Nat.le_max_left _ _)
      exact Nat.le_trans (Nat.le_add_left _ _) (cost_le_of_closeFrom hclosed)

/-- No stack of a run costs more than the first one or the peak. -/
theorem Takes.cost_le (h : Takes none s taken s') (rest : List Token) :
    cost s'.stack ≤ max (cost s.stack) (peak s (taken ++ rest)) := by
  induction h with
  | nil => exact Nat.le_max_left _ _
  | @cons s next s' t taken hm _ ih =>
      have hstep := hm.cost_le
      have hmeasured := wanted_le_peak next (taken ++ rest)
      rw [List.cons_append, peak_cons_of_move hm]
      omega

/-- Some state that a run comes to costs as much as the peak. -/
theorem exists_takes_of_peak (s : State) (tokens : List Token) :
    ∃ taken s', taken <+: tokens ∧ Takes none s taken s' ∧ peak s tokens ≤ s'.openCost := by
  induction tokens generalizing s with
  | nil => exact ⟨[], s, List.nil_prefix, .nil, s.wanted_le_openCost⟩
  | cons t rest ih =>
      rcases move_or_stop none s t with ⟨next, hm⟩ | ⟨v, hs⟩
      · -- the peak is measured in the first state, or in the run from the next one on
        rcases Nat.le_total (peak next rest) (peak.wanted s) with hle | hge
        · refine ⟨[], s, List.nil_prefix, .nil, ?_⟩
          rw [peak_cons_of_move hm, Nat.max_eq_left hle]
          exact s.wanted_le_openCost
        · obtain ⟨taken, last, hprefix, htakes, hpeak⟩ := ih next
          refine ⟨t :: taken, last, (List.prefix_cons_inj t).2 hprefix, .cons hm htakes, ?_⟩
          rwa [peak_cons_of_move hm, Nat.max_eq_right hge]
      · exact ⟨[], s, List.nil_prefix, .nil, by rw [peak_of_stop hs]; exact s.wanted_le_openCost⟩

/-- Some state that a parse passes through has the peak as its open cost. -/
theorem exists_passesThrough (tokens : List Token) :
    ∃ s, PassesThrough tokens s ∧ peak .start tokens ≤ s.openCost := by
  obtain ⟨taken, s, hprefix, htakes, hpeak⟩ := exists_takes_of_peak .start tokens
  exact ⟨s, ⟨taken, hprefix, htakes⟩, hpeak⟩

/-- The peak of a parse is the greatest open cost of the states that it passes through. -/
theorem peak_le_iff : peak .start tokens ≤ n ↔ ∀ s, PassesThrough tokens s → s.openCost ≤ n := by
  constructor
  · rintro hpeak s ⟨taken, ⟨rest, rfl⟩, htakes⟩
    have hcost := htakes.cost_le rest
    have hopen := s.openCost_le
    have hstart : cost State.start.stack = 0 := rfl
    omega
  · intro hall
    obtain ⟨s, hs, hpeak⟩ := exists_passesThrough tokens
    exact Nat.le_trans hpeak (hall s hs)

/-! ## Bounds that are exceeded -/

theorem wanted_le_of_within (h : Within limit s.stack) : ∀ n ∈ limit, peak.wanted s ≤ n :=
  fun n hn => Nat.le_trans (Nat.le_trans s.wanted_le_openCost s.openCost_le) (h n hn)

/-- A parse whose peak is beyond the bound is given up. -/
theorem verdict_of_not_affordable (hw : Within limit s.stack) (h : ¬ Affordable limit s tokens) :
    (run limit s tokens).verdict = .rejected .nestedTooDeeply := by
  have hwanted := wanted_le_of_within hw
  induction tokens generalizing s with
  | nil => exact absurd hwanted h
  | cons t rest ih =>
      rcases move_or_stop none s t with ⟨next, hm⟩ | ⟨v, hs⟩
      · by_cases hnext : Within limit next.stack
        · -- the bound is not exceeded yet, so it is the rest that is not affordable
          have hrest : ¬ Affordable limit next rest := by
            intro hafford
            refine h fun n hn => ?_
            rw [peak_cons_of_move hm]
            exact Nat.max_le.2 ⟨hwanted n hn, hafford n hn⟩
          have hmove : Move limit s t next := hm.within fun _ => hnext
          rw [run, hmove.step_eq]
          exact ih hnext hrest (wanted_le_of_within hnext)
        · rw [(hm.stop_of_not_within hw hnext).run_eq]
      · refine absurd (fun n hn => ?_) h
        rw [peak_of_stop hs]
        exact hwanted n hn

theorem Attempt.verdict_eq {c : Cursor} {last : State} {v : Verdict} (h : Attempt limit c taken last t v) :
    (run limit .start c.rest).verdict = v := by
  obtain ⟨more, hrest⟩ := h.rest
  rw [hrest, h.takes.run_eq, h.stop.run_eq]

/-! ## Chains -/

/-- The tokens of a chain are taken under every bound, and open no parenthesis. -/
theorem IsChain.exists_takes (h : IsChain tokens) (limit : Option Nat) (hgroup : .group ∉ stack) :
    ∃ stack' e, Takes limit ⟨stack, none⟩ tokens ⟨stack', some e⟩ ∧ .group ∉ stack' := by
  induction h generalizing stack with
  | operand hoperand =>
      obtain ⟨value, hvalue⟩ := Option.isSome_iff_exists.1 hoperand
      exact ⟨stack, .literal value, (Move.operand hvalue).takes, hgroup⟩
  | @link t operator rest hoperand hoperator _ ih =>
      obtain ⟨value, hvalue⟩ := Option.isSome_iff_exists.1 hoperand
      obtain ⟨level, hlevel⟩ := Option.isSome_iff_exists.1 hoperator
      generalize hclosed : closeFrom level.rank stack (.literal value) = closed
      obtain ⟨outer, left⟩ := closed
      have hsuffix := closeFrom_suffix level.rank stack (.literal value)
      rw [hclosed] at hsuffix
      have houter : .group ∉ .binary left operator :: outer := by
        rw [List.mem_cons, not_or]
        exact ⟨nofun, fun hmem => hgroup (hsuffix.subset hmem)⟩
      obtain ⟨stack', e, htakes, hgroup'⟩ := ih houter
      exact ⟨stack', e, .cons (.operand hvalue) (.cons (.operator hlevel hclosed) htakes), hgroup'⟩

/-- A chain in front of a token that is no binary operator is a whole expression under every bound. -/
theorem IsChain.exists_attempt {c : Cursor} {more : List Token} (h : IsChain tokens) (limit : Option Nat)
    (hrest : c.rest = tokens ++ t :: more) (ht : t.kind.level? = none) :
    ∃ last e, Attempt limit c tokens last t (.complete e) := by
  obtain ⟨stack, e, htakes, hgroup⟩ := h.exists_takes limit (List.not_mem_nil (a := Frame.group))
  refine ⟨_, (closeFrom 0 stack e).2, ⟨more, hrest⟩, htakes, .whole ht rfl ?_⟩
  intro below hbelow
  have hsuffix := closeFrom_suffix 0 stack e
  rw [hbelow] at hsuffix
  exact hgroup (hsuffix.subset List.mem_cons_self)

end Parse

namespace Parser

open Parse

variable {limit : Nat} {p : Parser}

/-- As long as the open cost stays within a bound, the bound plays no part. -/
theorem parse_eq_of_openCost_le (h : ∀ s, PassesThrough p.cursor.rest s → s.openCost ≤ limit) :
    p.parse (some limit) = p.parse none := by
  have hafford : Affordable (some limit) .start p.cursor.rest := by
    rintro n ⟨⟩
    exact peak_le_iff.2 h
  have hrun := run_eq_of_affordable hafford
  have hcursor : p.cursor.parse (some limit) = p.cursor.parse none := by
    simp only [Cursor.parse, expression, hrun]
  rw [parse, parse, hcursor]

/-- Once the open cost exceeds a bound, there is no tree, and one diagnostic says so. -/
theorem parse_of_lt_openCost (hposition : p.cursor.position < p.cursor.tokens.length) {s : State}
    (h : PassesThrough p.cursor.rest s) (hlt : limit < s.openCost) :
    ∃ after t, p.parse (some limit) =
      (none, ⟨after, p.reporter.report (Rejection.ofCause .nestedTooDeeply t).diagnostic⟩) := by
  have hnot : ¬ Affordable (some limit) .start p.cursor.rest := by
    intro hafford
    have hle : s.openCost ≤ limit := peak_le_iff.1 (hafford limit rfl) s h
    omega
  have hstart : Within (some limit) State.start.stack := by
    rintro n ⟨⟩
    exact Nat.zero_le _
  have hverdict := verdict_of_not_affordable hstart hnot
  obtain ⟨taken, last, t, v, hattempt⟩ := exists_attempt (some limit) hposition
  obtain rfl : v = .rejected .nestedTooDeeply := hattempt.verdict_eq.symm.trans hverdict
  refine ⟨p.cursor.forward taken.length, t, ?_⟩
  rw [parse, hattempt.parse_eq]
  rfl

/-- Nesting, and nothing else, makes a parse be given up. Under a bound from 700 on and below 2000: if the
open cost never exceeds 700, a parse comes to exactly what it would come to without a bound; if the open cost
reaches 2000 at some moment, there is no tree, and one diagnostic is added, which says that the nesting is too
deep. Chains of binary operators have a tree whatever their length. -/
theorem parse_limited_by_nesting_alone (limit : Nat) (hlow : 700 ≤ limit) (hhigh : limit < 2000) (p : Parser)
    (hposition : p.cursor.position < p.cursor.tokens.length) :
    ((∀ s, PassesThrough p.cursor.rest s → s.openCost ≤ 700) → p.parse (some limit) = p.parse none) ∧
    ((∃ s, PassesThrough p.cursor.rest s ∧ 2000 ≤ s.openCost) →
      ∃ after d, p.parse (some limit) = (none, ⟨after, ⟨p.reporter.echoes, p.reporter.held ++ [d]⟩⟩) ∧
        d.kind = .syntactic ∧ d.code = some "P003" ∧ d.message = "Expression nested too deeply.") ∧
    ∀ chain t more, IsChain chain → t.kind.level? = none → p.cursor.rest = chain ++ t :: more →
      ∃ e, p.parse (some limit) = (some e, ⟨p.cursor.forward chain.length, p.reporter⟩) := by
  refine ⟨?_, ?_, ?_⟩
  · intro hall
    exact parse_eq_of_openCost_le fun s hs => Nat.le_trans (hall s hs) hlow
  · rintro ⟨s, hs, hle⟩
    obtain ⟨after, t, heq⟩ := parse_of_lt_openCost hposition hs (Nat.lt_of_lt_of_le hhigh hle)
    exact ⟨after, _, heq, rfl, rfl, rfl⟩
  · intro chain t more hchain ht hrest
    obtain ⟨last, e, hattempt⟩ := hchain.exists_attempt (some limit) hrest ht
    refine ⟨e, ?_⟩
    rw [parse, hattempt.parse_eq]
    rfl

/-- The tokens of `-(nil)` cost twelve at most, and those of 182 parentheses cost 2002 before the end of the
input is looked at. A product of three is a chain. -/
theorem open_parentheses_are_given_up :
    let nil : Token := ⟨.keyword .nilWord, "nil", .nil, 1⟩
    let open' : Token := ⟨.leftParen, "(", .nil, 1⟩
    let group : Sequence :=
      ⟨[⟨.minus, "-", .nil, 1⟩, open', nil, ⟨.rightParen, ")", .nil, 1⟩], .endOfInput 1, rfl⟩
    let deep : Sequence := ⟨List.replicate 182 open', .endOfInput 1, rfl⟩
    let star : Token := ⟨.star, "*", .nil, 1⟩
    let product : Sequence := ⟨[nil, star, nil, star, nil], .endOfInput 1, rfl⟩
    let r : Reporter := .empty true
    (start group r).parse (some 1000) = (start group r).parse none ∧
      (∃ after d, (start deep r).parse (some 1000) = (none, ⟨after, ⟨true, [d]⟩⟩) ∧
        d.kind = .syntactic ∧ d.code = some "P003" ∧ d.message = "Expression nested too deeply.") ∧
      ∃ e, (start product r).parse (some 1000) = (some e, ⟨⟨product, 5⟩, r⟩) := by
  intro nil open' group deep star product r
  obtain ⟨hsame, -, -⟩ := parse_limited_by_nesting_alone 1000 (by decide) (by decide) (start group r)
    (Nat.succ_pos _)
  obtain ⟨-, hdeep, -⟩ := parse_limited_by_nesting_alone 1000 (by decide) (by decide) (start deep r)
    (Nat.succ_pos _)
  obtain ⟨-, -, hchain⟩ := parse_limited_by_nesting_alone 1000 (by decide) (by decide) (start product r)
    (Nat.succ_pos _)
  have hlow : peak .start group.toList ≤ 700 := by decide
  have hhigh : 2000 ≤ peak .start deep.toList := by decide +kernel
  obtain ⟨s, hs, hpeak⟩ := exists_passesThrough deep.toList
  exact ⟨hsame (peak_le_iff.1 hlow), hdeep ⟨s, hs, Nat.le_trans hhigh hpeak⟩,
    hchain product.body product.last [] (.link rfl rfl (.link rfl rfl (.operand rfl))) rfl rfl⟩

end Parser

end LoxSyntax
