/-
# LoxSyntax.Proofs.Parse.Descent -- the rules answer, they answer like the parser with frames, and in bounds

The parser with frames takes the same tokens as the rules, but at other moments: the rules make a binary
expression as soon as its right operand is read, while the frames are closed by the token behind it. So what a
rule has read is compared after closing. `Builds` says that an expression has been read above a stack of
frames: the parser with frames has come to a state which, once closed down to a rank, is that expression above
that stack. `Agrees` adds what follows the expression, or where and why both refuse.

Each rule ANSWERS, in agreement, if the rules that it calls behind the cursor do (`answers_primary`,
`answers_unary`, `answers_chain`, `answers_binary`); a rule that is called at the cursor is one of a tighter
level. As no cursor goes past the end of the input, all rules answer (`answersBehind`), and so do requests in
any order (`serveAll_stays_in_bounds`).
-/
import LoxSyntax.Proofs.Parse.Access

namespace LoxSyntax

/-! ## Agreement with the parser with frames -/

namespace Parse

variable {p q r : State} {c c' c'' : Cursor} {rank : Nat} {stack outer : List Frame} {e left : Expr}

/-- One state becomes another while a cursor moves over the tokens that are taken. -/
def Advances (p : State) (c : Cursor) (q : State) (c' : Cursor) : Prop :=
  ∃ taken, Takes none p taken q ∧ c.rest = taken ++ c'.rest ∧ c' = c.forward taken.length

theorem Advances.refl (p : State) (c : Cursor) : Advances p c p c := ⟨[], .nil, rfl, rfl⟩

theorem Advances.trans (h : Advances p c q c') (h' : Advances q c' r c'') : Advances p c r c'' := by
  obtain ⟨taken, htakes, hrest, rfl⟩ := h
  obtain ⟨more, htakes', hrest', rfl⟩ := h'
  refine ⟨taken ++ more, htakes.append htakes', ?_, ?_⟩
  · rw [hrest, hrest', List.append_assoc]
  · rw [List.length_append, Cursor.forward, Cursor.forward, Cursor.forward, Nat.add_assoc]

theorem Move.advances (h : Move none p c.peek q) (hlt : c.position < c.tokens.length) :
    Advances p c q (c.forward 1) :=
  ⟨[c.peek], h.takes, Cursor.rest_eq_cons hlt, rfl⟩

theorem Advances.le_position (h : Advances p c q c') : c.position ≤ c'.position := by
  obtain ⟨taken, -, -, rfl⟩ := h
  exact Nat.le_add_right _ _

/-- An expression has been read above a stack, up to the closing of frames down to a rank. -/
inductive Builds (rank : Nat) (stack : List Frame) (c : Cursor) (e : Expr) (c' : Cursor) : Prop where
  | intro {above : List Frame} {last : Expr} :
      Advances ⟨stack, none⟩ c ⟨above, some last⟩ c' →
      (∀ r ≤ rank, closeFrom r above last = closeFrom r stack e) → Builds rank stack c e c'

theorem Builds.mono (h : Builds rank stack c e c') {rank' : Nat} (hle : rank' ≤ rank) :
    Builds rank' stack c e c' := by
  obtain ⟨hadvances, hclose⟩ := h
  exact ⟨hadvances, fun r hr => hclose r (Nat.le_trans hr hle)⟩

/-- No operator binds less than those of equality. -/
theorem level?_eq_none_of_forall_lt {kind : Kind}
    (h : ∀ l, kind.level? = some l → l.rank < Level.equality.rank) : kind.level? = none := by
  cases hl : kind.level? with
  | none => rfl
  | some l => exact absurd (h l hl) (Nat.not_lt_zero _)

/-- The rule of a level and the parser with frames, called above a stack, come to the same: an expression, with
no operator of the level or of a tighter one behind it, or the same refusal at the same place. -/
inductive Agrees (level : Level) (stack : List Frame) (c : Cursor) :
    Except Rejection Expr → Cursor → Prop where
  | ok {e : Expr} {c' : Cursor} :
      Builds level.rank stack c e c' →
      (∀ l, c'.peek.kind.level? = some l → l.rank < level.rank) → Agrees level stack c (.ok e) c'
  | error {cause : Cause} {last : State} {c' : Cursor} :
      Advances ⟨stack, none⟩ c last c' → Stop none last c'.peek (.rejected cause) →
      Agrees level stack c (.error (.ofCause cause c'.peek)) c'

/-- A refusal further on is the refusal of the rule. -/
theorem Advances.agrees_error {level level' : Level} {above : List Frame} {rejection : Rejection}
    (hadvances : Advances ⟨stack, none⟩ c ⟨above, none⟩ c')
    (h : Agrees level' above c' (.error rejection) c'') : Agrees level stack c (.error rejection) c'' := by
  cases h with
  | error hmore hstop => exact .error (hadvances.trans hmore) hstop

theorem Agrees.le_position {level : Level} {answer : Except Rejection Expr}
    (h : Agrees level stack c answer c') : c.position ≤ c'.position := by
  cases h with
  | ok hbuilds _ =>
      obtain ⟨hadvances, _⟩ := hbuilds
      exact hadvances.le_position
  | error hadvances _ => exact hadvances.le_position

theorem Advances.attempt {last : State} {v : Verdict} (h : Advances .start c last c')
    (hstop : Stop none last c'.peek v) (hlt : c'.position < c'.tokens.length) :
    ∃ taken, Attempt none c taken last c'.peek v ∧ c' = c.forward taken.length := by
  obtain ⟨taken, htakes, hrest, hcursor⟩ := h
  exact ⟨taken, ⟨⟨_, by rw [hrest, Cursor.rest_eq_cons hlt]⟩, htakes, hstop⟩, hcursor⟩

/-- Above no frames, the rule of expressions agrees with a parse that is nowhere given up. -/
theorem Agrees.parse_eq {answer : Except Rejection Expr} (h : Agrees .equality [] c answer c')
    (hlt : c'.position < c'.tokens.length) {limit : Option Nat} (hafford : Affordable limit .start c.rest) :
    c.parse limit = (answer, c') := by
  cases h with
  | @ok e _ hbuilds hfollow =>
      obtain ⟨hadvances, hclose⟩ := hbuilds
      have hwhole : Stop none _ c'.peek (.complete e) :=
        .whole (level?_eq_none_of_forall_lt hfollow) (hclose 0 (Nat.le_refl _)) nofun
      obtain ⟨taken, hattempt, heq⟩ := hadvances.attempt hwhole hlt
      rw [(hattempt.of_affordable hafford).parse_eq, ← heq]
      rfl
  | error hadvances hstop =>
      obtain ⟨taken, hattempt, heq⟩ := hadvances.attempt hstop hlt
      rw [(hattempt.of_affordable hafford).parse_eq, ← heq]
      rfl

end Parse

namespace Descent

open Parse

variable {s : Sequence} {f : Nat} {c : Cursor} {d : Descent} {stack : List Frame} {level : Level}

/-! ## The rules -/

/-- What a rule gives above a stack is in agreement with the parser with frames, and in bounds. -/
def Answers (s : Sequence) (f : Nat) (level : Level) (stack : List Frame) (c : Cursor)
    (a : Answer (Except Rejection Expr) d) : Prop :=
  ∃ answer after le c', a = ⟨answer, after, le⟩ ∧ SafeAt s f c' after ∧ Agrees level stack c answer c'

/-- Behind a position every rule answers, up to that of unary expressions. -/
def AnswersBehind (s : Sequence) (f position : Nat) : Prop :=
  ∀ (c : Cursor) (d : Descent) (level : Level) (stack : List Frame), SafeAt s f c d →
    position < c.position → level.rank ≤ Level.unary.rank → Fits stack level.rank →
    Answers s f level stack c (rule level d)

theorem Answers.back {d' : Descent} {a : Answer (Except Rejection Expr) d'} (h : Answers s f level stack c a)
    (le : d'.remaining ≤ d.remaining) : Answers s f level stack c (a.back le) := by
  obtain ⟨answer, after, _, c', rfl, hsafe, hagrees⟩ := h
  exact ⟨answer, after, _, c', rfl, hsafe, hagrees⟩

/-- Every operator binds less than a unary one. -/
theorem rank_lt_of_unary_le (hlevel : Level.unary.rank ≤ level.rank) (t : Token) :
    ∀ l, t.kind.level? = some l → l.rank < level.rank :=
  fun _ hl => Nat.lt_of_lt_of_le (Kind.level?_rank_lt hl) hlevel

/-! ### Primary and unary expressions -/

/-- Behind its expression a group is closed, or it is refused. -/
theorem answers_closeGroup {c' : Cursor} {outer : List Frame} {inner last : Expr} (h : SafeAt s f c' d)
    (hinner : Advances ⟨stack, none⟩ c ⟨outer, some last⟩ c')
    (hclose : closeFrom 0 outer last = (.group :: stack, inner)) (hnone : c'.peek.kind.level? = none) :
    Answers s f .primary stack c (d.closeGroup inner) := by
  by_cases hright : c'.peek.kind = .rightParen
  · obtain ⟨after, le, hconsume, hafter⟩ :=
      (h.consume .rightParen (by decide) .expectedParenthesis hright).exists_eq
    have hmove : Move none _ c'.peek ⟨stack, some (.grouping inner)⟩ := .closing hright hclose
    have hbuilds : Builds Level.primary.rank stack c (.grouping inner) (c'.forward 1) :=
      ⟨hinner.trans (hmove.advances h.position_lt), fun _ _ => rfl⟩
    exact ⟨_, after, le, _, by rw [closeGroup, hconsume], hafter,
      .ok hbuilds (rank_lt_of_unary_le (by decide) _)⟩
  · obtain ⟨after, le, hconsume, hafter⟩ :=
      (h.consume_of_ne .rightParen (by decide) .expectedParenthesis hright).exists_eq
    exact ⟨_, after, le, _, by rw [closeGroup, hconsume], hafter,
      .error hinner (.unclosed hnone hright hclose)⟩

/-- Behind its parenthesis, a group is an expression and another parenthesis. -/
theorem answers_group {c' : Cursor} (ih : AnswersBehind s f c.position) (h : SafeAt s f c' d)
    (hlt : c.position < c'.position) (hopened : Advances ⟨stack, none⟩ c ⟨.group :: stack, none⟩ c') :
    Answers s f .primary stack c
      ((rule .equality d).andThen fun inner after _ => after.closeGroup inner) := by
  obtain ⟨answer, after, le, c₁, hrule, h₁, hagrees⟩ :=
    ih c' d .equality (.group :: stack) h hlt (by decide) (by simp [Frame.demand])
  rw [hrule]
  cases answer with
  | error rejection => exact ⟨_, after, le, c₁, rfl, h₁, hopened.agrees_error hagrees⟩
  | ok inner =>
      cases hagrees with | ok hbuilds hfollow =>
      obtain ⟨hinner, hclose⟩ := hbuilds
      -- closing stops at the parenthesis, and no operator is left that could go on
      have hgroup := (hclose 0 (Nat.zero_le _)).trans closeFrom_group
      have hnone := level?_eq_none_of_forall_lt hfollow
      exact (answers_closeGroup h₁ (hopened.trans hinner) hgroup hnone).back le

theorem answers_primary (ih : AnswersBehind s f c.position) (h : SafeAt s f c d)
    (hunary : c.peek.kind.isUnary = false) : Answers s f .primary stack c (primary d) := by
  obtain ⟨after, le, hliteral, hafter⟩ := h.takeLiteral.exists_eq
  rw [primary, hliteral]
  cases hv : c.peek.operand? with
  | some value =>
      rw [hv] at hafter
      have hmove : Move none ⟨stack, none⟩ c.peek ⟨stack, some (.literal value)⟩ := .operand hv
      have hbuilds : Builds Level.primary.rank stack c (.literal value) (c.forward 1) :=
        ⟨hmove.advances h.position_lt, fun _ _ => rfl⟩
      exact ⟨_, after, le, _, rfl, hafter, .ok hbuilds (rank_lt_of_unary_le (by decide) _)⟩
  | none =>
      rw [hv] at hafter
      replace hafter : SafeAt s f c after := hafter
      by_cases hparen : c.peek.kind = .leftParen
      · obtain ⟨after', lt, htake, hafter'⟩ :=
          hafter.takeAny_of_mem [.leftParen] (by decide) (by simp [hparen])
        have hmove : Move none ⟨stack, none⟩ c.peek ⟨.group :: stack, none⟩ :=
          .opening hparen (within_none _)
        simp only [htake]
        exact (answers_group ih hafter' (Nat.lt_succ_self _) (hmove.advances h.position_lt)).back _
      · obtain ⟨after', le', htake, hafter'⟩ :=
          hafter.takeAny_of_not_mem [.leftParen] (by decide) (by simp [hparen])
        obtain ⟨last, le'', hrefuse, hlast⟩ := (hafter'.refuse (α := Expr) .expectedExpression).exists_eq
        simp only [htake, hrefuse]
        exact ⟨_, last, _, c, rfl, hlast, .error (.refl _ _) (.noOperand hv hunary hparen)⟩

theorem mem_unary_iff {kind : Kind} : kind ∈ [Kind.bang, .minus] ↔ kind.isUnary = true := by
  cases kind <;> simp [Kind.isUnary]

theorem rule_unary (d : Descent) : rule .unary d = unary d := by
  rw [rule, dif_neg (Nat.lt_irrefl _)]

theorem answers_unary (ih : AnswersBehind s f c.position) (h : SafeAt s f c d) :
    Answers s f .unary stack c (unary d) := by
  rw [unary]
  by_cases hunary : c.peek.kind.isUnary = true
  · obtain ⟨after, lt, htake, hprevious⟩ :=
      h.takeAny_previous [.bang, .minus] (by decide) (mem_unary_iff.2 hunary)
    have hmove : Move none ⟨stack, none⟩ c.peek ⟨.unary c.peek :: stack, none⟩ := .sign hunary (within_none _)
    have hsigned := hmove.advances h.position_lt
    obtain ⟨answer, last, le, c₁, hrule, hlast, hagrees⟩ :=
      ih _ _ .unary (.unary c.peek :: stack) hprevious.safe (Nat.lt_succ_self _) (Nat.le_refl _) (fits_unary _)
    rw [rule_unary] at hrule
    simp only [htake, hrule, hprevious.value_eq]
    cases answer with
    | error rejection => exact ⟨_, last, _, c₁, rfl, hlast, hsigned.agrees_error hagrees⟩
    | ok operand =>
        cases hagrees with | ok hbuilds hfollow =>
        obtain ⟨hoperand, hclose⟩ := hbuilds
        refine ⟨_, last, _, c₁, rfl, hlast, .ok ⟨hsigned.trans hoperand, ?_⟩ hfollow⟩
        intro r hr
        rw [hclose r hr, closeFrom_unary hr]
  · obtain ⟨after, le, htake, hafter⟩ :=
      h.takeAny_of_not_mem [.bang, .minus] (by decide) (mt mem_unary_iff.1 hunary)
    have hprimary : Answers s f .primary stack c (primary after) :=
      answers_primary ih hafter (Bool.eq_false_iff.2 hunary)
    obtain ⟨answer, last, le', c₁, heq, hlast, hagrees⟩ := hprimary
    simp only [htake, heq]
    refine ⟨answer, last, _, c₁, rfl, hlast, ?_⟩
    cases hagrees with
    | ok hbuilds _ => exact .ok (hbuilds.mono (by decide)) (rank_lt_of_unary_le (Nat.le_refl _) _)
    | error hadvances hstop => exact .error hadvances hstop

/-! ### Binary expressions -/

theorem mem_operators_iff {kind : Kind} : kind ∈ level.operators ↔ kind.level? = some level := by
  cases level <;> cases kind <;> simp [Level.operators, Kind.level?]

theorem endOfInput_not_mem_operators (level : Level) : Kind.endOfInput ∉ level.operators := by
  cases level <;> decide

/-- Operators of a level and operands behind them, to the right of an expression that has been read. -/
theorem answers_chain {c' : Cursor} {left : Expr} (hlevel : level.rank < Level.unary.rank)
    (hfits : Fits stack level.rank) (ih : AnswersBehind s f c.position) (h : SafeAt s f c' d)
    (hbuilds : Builds level.rank stack c left c')
    (hfollow : ∀ l, c'.peek.kind.level? = some l → l.rank ≤ level.rank) :
    Answers s f level stack c (chain level left d) := by
  -- on the number of tokens up to the end of the input
  induction hn : f - c'.position using Nat.strong_induction_on generalizing c' d left with
  | _ n again =>
  obtain ⟨hleft, hclose⟩ := hbuilds
  have hnext : level.next.rank = level.rank + 1 := Level.rank_next hlevel
  rw [chain]
  by_cases hop : c'.peek.kind.level? = some level
  · obtain ⟨after, lt, htake, hprevious⟩ :=
      h.takeAny_previous _ (endOfInput_not_mem_operators level) (mem_operators_iff.2 hop)
    -- the operator closes the operand on its left down to the level, and there the stack stops it
    have hclosed := (hclose level.rank (Nat.le_refl _)).trans (closeFrom_of_fits hlevel hfits)
    have hmove : Move none _ c'.peek ⟨.binary left c'.peek :: stack, none⟩ := .operator hop hclosed
    have hoperator := hleft.trans (hmove.advances h.position_lt)
    have hlt : c.position < (c'.forward 1).position := Nat.lt_succ_of_le hleft.le_position
    obtain ⟨answer, last, le, c₁, hrule, hlast, hagrees⟩ :=
      ih _ _ level.next (.binary left c'.peek :: stack) hprevious.safe hlt (by omega)
        (by rw [fits_cons, demand_binary hop]; omega)
    simp only [htake, hrule, hprevious.value_eq]
    cases answer with
    | error rejection => exact ⟨_, last, _, c₁, rfl, hlast, hoperator.agrees_error hagrees⟩
    | ok right =>
        have hforward : c'.position + 1 ≤ c₁.position := hagrees.le_position
        have hbound := hlast.position_le
        cases hagrees with | ok hbuilds hbehind =>
        obtain ⟨hright, hclose'⟩ := hbuilds
        have hbinary : Builds level.rank stack c (.binary left c'.peek right) c₁ := by
          refine ⟨hoperator.trans hright, ?_⟩
          intro r hr
          rw [hclose' r (by omega), closeFrom_binary hop hr]
        have hbehind' : ∀ l, c₁.peek.kind.level? = some l → l.rank ≤ level.rank := by
          intro l hl
          have hlt := hbehind l hl
          omega
        exact ((again _ (by omega) hlast hbinary hbehind' rfl).back le).back _
  · obtain ⟨after, le, htake, hafter⟩ :=
      h.takeAny_of_not_mem _ (endOfInput_not_mem_operators level) (mt mem_operators_iff.1 hop)
    rw [htake]
    refine ⟨_, after, le, c', rfl, hafter, .ok ⟨hleft, hclose⟩ ?_⟩
    intro l hl
    refine Nat.lt_of_le_of_ne (hfollow l hl) ?_
    intro heq
    exact hop (Level.rank_injective heq ▸ hl)

theorem answers_binary (hlevel : level.rank < Level.unary.rank) (hfits : Fits stack level.rank)
    (ih : AnswersBehind s f c.position) (hnext : Answers s f level.next stack c (rule level.next d)) :
    Answers s f level stack c (rule level d) := by
  obtain ⟨answer, after, le, c₁, hrule, hafter, hagrees⟩ := hnext
  have hrank : level.next.rank = level.rank + 1 := Level.rank_next hlevel
  rw [rule, dif_pos hlevel, hrule]
  cases hagrees with
  | error hadvances hstop => exact ⟨_, after, le, _, rfl, hafter, .error hadvances hstop⟩
  | ok hbuilds hfollow =>
      refine (answers_chain hlevel hfits ih hafter (hbuilds.mono (by omega)) ?_).back le
      intro l hl
      have hlt := hfollow l hl
      omega

/-! ### All rules -/

/-- A rule answers where all rules do further on. -/
theorem SafeAt.answers (h : SafeAt s f c d) (ih : AnswersBehind s f c.position)
    (hlevel : level.rank ≤ Level.unary.rank) (hfits : Fits stack level.rank) :
    Answers s f level stack c (rule level d) := by
  -- on the levels, from the unary expressions down to the loosest level
  induction hn : Level.unary.rank - level.rank generalizing level with
  | zero =>
      obtain rfl : level = .unary := Level.rank_injective (by omega)
      rw [rule_unary]
      exact answers_unary ih h
  | succ n again =>
      have hlt : level.rank < Level.unary.rank := by omega
      have hnext : level.next.rank = level.rank + 1 := Level.rank_next hlt
      exact answers_binary hlt hfits ih (again (by omega) (hfits.mono (by omega)) (by omega))

theorem answersBehind (s : Sequence) (f position : Nat) : AnswersBehind s f position := by
  -- from the end of the input backwards
  induction hn : f - position using Nat.strong_induction_on generalizing position with
  | _ n again =>
  intro c d level stack h hlt hlevel hfits
  have hle := h.position_le
  exact h.answers (again _ (by omega) _ rfl) hlevel hfits

/-! ## Requests -/

/-- A parse is answered, and a parse that is nowhere given up is answered alike. -/
theorem SafeAt.parse (h : SafeAt s f c d) :
    ∃ c', SafeAt s f c' d.parse.after ∧
      ∀ limit, Affordable limit .start c.rest → c.parse limit = (d.parse.answer, c') := by
  have hanswers : Answers s f .equality [] c d.parse :=
    h.answers (answersBehind s f c.position) (Nat.zero_le _) (fits_nil _)
  obtain ⟨answer, after, le, c', hparse, hafter, hagrees⟩ := hanswers
  rw [hparse]
  exact ⟨c', hafter, fun limit hafford => hagrees.parse_eq hafter.position_lt hafford⟩

/-- Behind a token, settling skips what synchronization skips. -/
theorem SafeAt.settle (h : SafeAt s f c d) (hpos : 0 < c.position) :
    SafeAt s f (c.moveTo (Cursor.skip c.previous c.rest)) d.settle := by
  -- on the number of tokens up to the end of the input
  induction hn : f - c.position using Nat.strong_induction_on generalizing c d with
  | _ n again =>
  have hstay : c.moveTo c.rest = c :=
    Cursor.moveTo_eq_forward (Nat.le_of_lt h.position_lt) (List.nil_append _).symm
  have hrest := Cursor.rest_eq_cons h.position_lt
  have hended := h.atEnd
  have hbefore := hended.safe.previous_used hpos
  have hnext := hbefore.safe.peek
  rw [Descent.settle]
  simp only [hended.value_eq, hbefore.value_eq, hnext.value_eq]
  by_cases hstop : c.peek.isEnd ∨ c.previous.kind ∈ Kind.statementEnds ∨ c.peek.kind ∈ Kind.statementStarts
  · have hskip : c.moveTo (Cursor.skip c.previous c.rest) = c := by
      rw [hrest, Cursor.skip, if_pos hstop, ← hrest, hstay]
    rw [hskip]
    -- the three reasons to stop are looked for one after the other
    split
    · exact hended.safe
    · split
      · exact hbefore.safe
      · rw [if_pos (by simp_all)]
        exact hnext.safe
  · have hskip : c.moveTo (Cursor.skip c.previous c.rest) =
        (c.forward 1).moveTo (Cursor.skip (c.forward 1).previous (c.forward 1).rest) := by
      rw [hrest, Cursor.skip, if_neg hstop]
      rfl
    obtain ⟨hend, hends, hstarts⟩ : c.peek.isEnd = false ∧ c.previous.kind ∉ Kind.statementEnds ∧
        c.peek.kind ∉ Kind.statementStarts := by simpa using hstop
    have hadvance := hnext.safe.advance hend
    have hbound : c.position + 1 ≤ f := hadvance.safe.position_le
    have hless : f - (c.forward 1).position < n := by
      show f - (c.position + 1) < n
      omega
    rw [hskip, dif_neg (by simp [hend]), if_neg hends, if_neg hstarts]
    exact again _ hless hadvance.safe (Nat.succ_pos _) rfl

theorem SafeAt.synchronize (h : SafeAt s f c d) : SafeAt s f c.synchronize d.synchronize := by
  rw [Descent.synchronize]
  cases hend : c.peek.isEnd with
  | true =>
      -- nothing is taken, and the loop ends before it looks back
      have hended := (h.advance_of_isEnd hend).safe.atEnd
      rw [Cursor.synchronize_of_isEnd h.position_lt hend, Descent.settle, dif_pos (hended.value_eq.trans hend)]
      exact hended.safe
  | false =>
      rw [Cursor.synchronize_of_not_isEnd h.position_lt hend]
      exact (h.advance hend).safe.settle (Nat.succ_pos _)

end Descent

/-- No parse that is asked for costs more than a bound allows. -/
def Cursor.StaysWithin (limit : Option Nat) : List Request → Cursor → Prop
  | [], _ => True
  | .parse :: requests, c => Parse.Affordable limit .start c.rest ∧ (c.parse limit).2.StaysWithin limit requests
  | .synchronize :: requests, c => c.synchronize.StaysWithin limit requests

namespace Descent

/-- Requests are served, in any order, and the descent stays safe. -/
theorem SafeAt.serveAll (requests : List Request) (h : SafeAt s f c d) :
    ∃ c', SafeAt s f c' (d.serveAll requests).2 ∧
      ∀ limit, c.StaysWithin limit requests → c.serveAll limit requests = ((d.serveAll requests).1, c') := by
  induction requests generalizing c d with
  | nil => exact ⟨c, h, fun _ _ => rfl⟩
  | cons request requests ih =>
      cases request with
      | parse =>
          obtain ⟨c₁, hparse, hanswer⟩ := h.parse
          obtain ⟨c₂, hserve, hanswers⟩ := ih hparse
          refine ⟨c₂, hserve, ?_⟩
          rintro limit ⟨hafford, hwithin⟩
          have heq := hanswer limit hafford
          rw [heq] at hwithin
          simp only [Cursor.serveAll, heq, hanswers limit hwithin]
          rfl
      | synchronize => exact ih h.synchronize

/-- The cursor is safe, whatever a parser is asked for and in whatever order. Let `f` be the first end of the
input in a sequence. The rules answer like a cursor that is nowhere given up. The cursor stays in front of `f`
or at it, and never goes back: no access is made from a place in front of the one where an earlier access has
left the cursor. No token behind `f` is read but as the token before the cursor, where it is discarded. And
where the token before the cursor is used, the cursor is not at the first place, and that token is the one that
was taken last. -/
theorem serveAll_stays_in_bounds (s : Sequence) (requests : List Request) :
    let (answers, d) := (start s).serveAll requests
    (∀ limit, (Cursor.start s).StaysWithin limit requests →
      (Cursor.start s).serveAll limit requests = (answers, d.cursor)) ∧
    ∃ f, IsLeast {k | (s.get k).kind = .endOfInput} f ∧ f < s.length ∧ d.cursor.position ≤ f ∧
      d.acts.Pairwise (fun a b => a.after ≤ b.position) ∧
      (∀ act ∈ d.acts, act.position ≤ act.after ∧ act.after ≤ d.cursor.position ∧
        ∀ index ∈ act.index? s, index ≤ f ∨ ∃ position, act = .lookBack position false) ∧
      ∀ earlier position later, d.acts = earlier ++ .lookBack position true :: later →
        ∃ last, position = last + 1 ∧ Act.lastTaken? earlier = some last ∧
          s.before position = s.get last := by
  have hstart : (Cursor.start s).position < (Cursor.start s).tokens.length := Nat.succ_pos _
  have hleast := Cursor.horizon_isLeast hstart
  have hlt := Cursor.horizon_lt_length hstart
  have hsafe : SafeAt s (Cursor.start s).horizon (Cursor.start s) (start s) := ⟨safe_start hleast.1.2 hlt, rfl⟩
  obtain ⟨_, ⟨hsafe, rfl⟩, hagrees⟩ := hsafe.serveAll requests
  refine ⟨hagrees, _, ?_, hlt, hsafe.position_le, hsafe.ordered, ?_, ?_⟩
  · have hiff : ∀ k, (s.get k).isEnd = true ↔ (s.get k).kind = .endOfInput := by simp [Token.isEnd]
    simpa [Cursor.start, hiff] using hleast
  · intro act hact
    obtain ⟨earlier, later, heq⟩ := List.append_of_mem hact
    exact ⟨act.position_le_after, hsafe.after_le act hact, (hsafe.proper earlier act later heq).index_le⟩
  · intro earlier position later heq
    obtain ⟨last, rfl, hlast⟩ := (hsafe.proper earlier _ later heq).taken_last position rfl
    exact ⟨last, rfl, hlast, rfl⟩

/-- In `nil nil; -nil` the first end of the input is at place 5, and more tokens stand behind it. Two
expressions are read, the rest of the statement is left behind, another expression is read, and from there on
the cursor rests at the end. -/
theorem two_statements_are_read_in_bounds :
    let nil : Token := ⟨.keyword .nilWord, "nil", .nil, 1⟩
    let minus : Token := ⟨.minus, "-", .nil, 1⟩
    let s : Sequence :=
      ⟨[nil, nil, ⟨.semicolon, ";", .nil, 1⟩, minus, nil, .endOfInput 1, minus], .endOfInput 1, rfl⟩
    let requests : List Request := [.parse, .parse, .synchronize, .parse, .synchronize, .parse]
    let (answers, d) := (start s).serveAll requests
    (Cursor.start s).StaysWithin Parse.defaultLimit requests ∧
      answers = [.ok (.literal .nil), .ok (.literal .nil), .ok (.unary minus (.literal .nil)),
        .error (.ofCause .expectedExpression (.endOfInput 1))] ∧
      d.cursor.position = 5 ∧ ∀ act ∈ d.acts, act.after ≤ 5 := by
  intro nil minus s requests
  have hwithin : (Cursor.start s).StaysWithin Parse.defaultLimit requests := by
    refine ⟨?_, ?_, ?_, ?_, trivial⟩ <;>
    · rintro n ⟨⟩
      decide
  obtain ⟨hagrees, _, -, -, -, -, hacts, -⟩ := serveAll_stays_in_bounds s requests
  have heq := hagrees Parse.defaultLimit hwithin
  have hanswers : ((Cursor.start s).serveAll Parse.defaultLimit requests).1 =
      [.ok (.literal .nil), .ok (.literal .nil), .ok (.unary minus (.literal .nil)),
        .error (.ofCause .expectedExpression (.endOfInput 1))] := by decide
  have hposition : ((Cursor.start s).serveAll Parse.defaultLimit requests).2.position = 5 := by decide
  rw [heq] at hanswers hposition
  refine ⟨hwithin, hanswers, hposition, ?_⟩
  intro act hact
  have hle := (hacts act hact).2.1
  rwa [hposition] at hle

end Descent

end LoxSyntax
