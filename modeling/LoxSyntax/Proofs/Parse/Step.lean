/-
# LoxSyntax.Proofs.Parse.Step -- what one step of the parser can do

`step` is a function of a state and a token that branches on both. `Move` lists the five ways in which
it goes on and `Stop` the ways in which it ends the parse; `step_eq_ok_iff` and `step_eq_error_iff` say
that these are all. What is proved about parsing further on is proved by cases on the two relations.

A frame DEMANDS of its operand that it binds tightly enough, and a stack FITS a rank if its innermost
frame demands no more. That is all that `closeFrom` has to be known by: it closes the frames that demand
more than its rank, and stops at a stack that fits it.
-/
import LoxSyntax.Parse.Basic

namespace LoxSyntax.Parse

/-! ## Demands of frames -/

/-- The rank that the operand of a frame must have at least. -/
def Frame.demand : Frame → Nat
  | .unary _ => Level.unary.rank
  | .binary _ operator =>
    match operator.kind.level? with
    | some level => level.rank + 1
    | none => 0
  | .group => 0

/-- The innermost frame of a stack accepts an operand of a rank. -/
def Fits (stack : List Frame) (rank : Nat) : Prop := ∀ frame ∈ stack.head?, frame.demand ≤ rank

@[simp] theorem fits_nil (rank : Nat) : Fits [] rank := by
  intro frame h
  cases h

@[simp] theorem fits_cons {frame : Frame} {stack : List Frame} {rank : Nat} :
    Fits (frame :: stack) rank ↔ frame.demand ≤ rank := by
  simp [Fits]

theorem Fits.mono {stack : List Frame} {rank rank' : Nat} (h : Fits stack rank) (hle : rank ≤ rank') :
    Fits stack rank' :=
  fun frame hmem => Nat.le_trans (h frame hmem) hle

theorem demand_binary {left : Expr} {operator : Token} {level : Level}
    (h : operator.kind.level? = some level) : (Frame.binary left operator).demand = level.rank + 1 := by
  simp only [Frame.demand, h]

/-- No frame demands more than a unary expression. -/
theorem fits_unary (stack : List Frame) : Fits stack Level.unary.rank := by
  intro frame _
  cases frame with
  | unary operator => exact Nat.le_refl _
  | group => exact Nat.zero_le _
  | binary left operator =>
      cases h : operator.kind.level? with
      | none => simp [Frame.demand, h]
      | some level =>
          have hlt := Kind.level?_rank_lt h
          rw [demand_binary h]
          omega

theorem fits_primary (stack : List Frame) : Fits stack Level.primary.rank :=
  (fits_unary stack).mono (by decide)

/-! ## Closing -/

section Closing

variable {rank : Nat} {stack : List Frame} {e left : Expr} {operator : Token} {level : Level}

theorem closeFrom_unary (h : rank ≤ Level.unary.rank) :
    closeFrom rank (.unary operator :: stack) e = closeFrom rank stack (.unary operator e) := by
  simp [closeFrom, Frame.level?, Frame.close, h]

theorem closeFrom_binary (h : operator.kind.level? = some level) (hle : rank ≤ level.rank) :
    closeFrom rank (.binary left operator :: stack) e = closeFrom rank stack (.binary left operator e) := by
  simp [closeFrom, Frame.level?, Frame.close, h, hle]

theorem closeFrom_group : closeFrom rank (.group :: stack) e = (.group :: stack, e) := rfl

/-- Nothing is closed where the innermost frame accepts the operand. Rank four is left out: a unary
operator accepts a unary operand, and is closed by it all the same. -/
theorem closeFrom_of_fits (hrank : rank < Level.unary.rank) (h : Fits stack rank) :
    closeFrom rank stack e = (stack, e) := by
  cases stack with
  | nil => rfl
  | cons frame stack =>
      rw [fits_cons] at h
      cases frame with
      | group => rfl
      | unary operator => exact absurd h (Nat.not_le.2 hrank)
      | binary left operator =>
          cases hl : operator.kind.level? with
          | none => simp [closeFrom, Frame.level?, hl]
          | some level =>
              rw [demand_binary hl] at h
              have hnot : ¬ rank ≤ level.rank := by omega
              simp [closeFrom, Frame.level?, hl, hnot]

end Closing

/-! ## Moves and stops -/

/-- A token is taken, and one state becomes another. -/
inductive Move (limit : Option Nat) : State → Token → State → Prop where
  | operand {stack : List Frame} {t : Token} {value : Value} :
      t.operand? = some value → Move limit ⟨stack, none⟩ t ⟨stack, some (.literal value)⟩
  | sign {stack : List Frame} {t : Token} :
      t.kind.isUnary = true → Within limit (.unary t :: stack) →
      Move limit ⟨stack, none⟩ t ⟨.unary t :: stack, none⟩
  | opening {stack : List Frame} {t : Token} :
      t.kind = .leftParen → Within limit (.group :: stack) →
      Move limit ⟨stack, none⟩ t ⟨.group :: stack, none⟩
  | operator {stack outer : List Frame} {e left : Expr} {t : Token} {level : Level} :
      t.kind.level? = some level → closeFrom level.rank stack e = (outer, left) →
      Move limit ⟨stack, some e⟩ t ⟨.binary left t :: outer, none⟩
  | closing {stack outer : List Frame} {e inner : Expr} {t : Token} :
      t.kind = .rightParen → closeFrom 0 stack e = (.group :: outer, inner) →
      Move limit ⟨stack, some e⟩ t ⟨outer, some (.grouping inner)⟩

/-- A token is not taken, and the parse ends in front of it. -/
inductive Stop (limit : Option Nat) : State → Token → Verdict → Prop where
  | noOperand {stack : List Frame} {t : Token} :
      t.operand? = none → t.kind.isUnary = false → t.kind ≠ .leftParen →
      Stop limit ⟨stack, none⟩ t (.rejected .expectedExpression)
  | tooDeep {stack : List Frame} {t : Token} {frame : Frame} :
      (t.kind.isUnary = true ∧ frame = .unary t) ∨ (t.kind = .leftParen ∧ frame = .group) →
      ¬ Within limit (frame :: stack) → Stop limit ⟨stack, none⟩ t (.rejected .nestedTooDeeply)
  | unclosed {stack outer : List Frame} {e inner : Expr} {t : Token} :
      t.kind.level? = none → t.kind ≠ .rightParen →
      closeFrom 0 stack e = (.group :: outer, inner) →
      Stop limit ⟨stack, some e⟩ t (.rejected .expectedParenthesis)
  | whole {stack outer : List Frame} {e whole : Expr} {t : Token} :
      t.kind.level? = none → closeFrom 0 stack e = (outer, whole) →
      (∀ below, outer ≠ .group :: below) → Stop limit ⟨stack, some e⟩ t (.complete whole)

/-! ### Tokens of one role have no other -/

theorem operand?_eq_none_of_isUnary {t : Token} (h : t.kind.isUnary = true) : t.operand? = none := by
  unfold Token.operand?
  split <;> simp_all [Kind.isUnary]

theorem operand?_eq_none_of_leftParen {t : Token} (h : t.kind = .leftParen) : t.operand? = none := by
  simp [Token.operand?, h]

theorem isUnary_eq_false_of_leftParen {t : Token} (h : t.kind = .leftParen) :
    t.kind.isUnary = false := by
  simp [Kind.isUnary, h]

theorem level?_eq_none_of_rightParen {t : Token} (h : t.kind = .rightParen) : t.kind.level? = none := by
  simp [Kind.level?, h]

/-! ### The two relations are the function -/

variable {limit : Option Nat} {s s' : State} {t : Token} {v : Verdict}

theorem within_none (stack : List Frame) : Within none stack := by
  intro n h
  cases h

theorem push_of_within {frame : Frame} {stack : List Frame} (h : Within limit (frame :: stack)) :
    push limit frame stack = .ok ⟨frame :: stack, none⟩ := by
  rw [push, if_pos h]

theorem push_of_not_within {frame : Frame} {stack : List Frame} (h : ¬ Within limit (frame :: stack)) :
    push limit frame stack = .error (.rejected .nestedTooDeeply) := by
  rw [push, if_neg h]

theorem Move.step_eq (h : Move limit s t s') : step limit s t = .ok s' := by
  cases h with
  | operand hv => simp [step, wanting, hv]
  | sign hu hw =>
      simp only [step, wanting, operand?_eq_none_of_isUnary hu, if_pos hu]
      exact push_of_within hw
  | opening hp hw =>
      simp only [step, wanting, operand?_eq_none_of_leftParen hp, isUnary_eq_false_of_leftParen hp,
        Bool.false_eq_true, if_false, if_pos hp]
      exact push_of_within hw
  | operator hl hc => simp [step, holding, hl, hc]
  | closing hp hc =>
      have hl := level?_eq_none_of_rightParen hp
      simp only [step, holding, hl, hc, if_pos hp]

theorem Stop.step_eq (h : Stop limit s t v) : step limit s t = .error v := by
  cases h with
  | noOperand hv hu hp => simp [step, wanting, hv, hu, hp]
  | tooDeep hf hw =>
      rcases hf with ⟨hu, rfl⟩ | ⟨hp, rfl⟩
      · simp only [step, wanting, operand?_eq_none_of_isUnary hu, if_pos hu]
        exact push_of_not_within hw
      · simp only [step, wanting, operand?_eq_none_of_leftParen hp, isUnary_eq_false_of_leftParen hp,
          Bool.false_eq_true, if_false, if_pos hp]
        exact push_of_not_within hw
  | unclosed hl hp hc => simp [step, holding, hl, hc, hp]
  | whole hl hc hno => simp [step, holding, hl, hc]

/-- A token is taken or it is not; there is no third way. -/
theorem move_or_stop (limit : Option Nat) (s : State) (t : Token) :
    (∃ s', Move limit s t s') ∨ ∃ v, Stop limit s t v := by
  obtain ⟨stack, held⟩ := s
  cases held with
  | none =>
      cases hv : t.operand? with
      | some value => exact .inl ⟨_, .operand hv⟩
      | none =>
          by_cases hu : t.kind.isUnary = true
          · by_cases hw : Within limit (.unary t :: stack)
            · exact .inl ⟨_, .sign hu hw⟩
            · exact .inr ⟨_, .tooDeep (.inl ⟨hu, rfl⟩) hw⟩
          · by_cases hp : t.kind = .leftParen
            · by_cases hw : Within limit (.group :: stack)
              · exact .inl ⟨_, .opening hp hw⟩
              · exact .inr ⟨_, .tooDeep (.inr ⟨hp, rfl⟩) hw⟩
            · exact .inr ⟨_, .noOperand hv (Bool.eq_false_iff.2 hu) hp⟩
  | some e =>
      cases hl : t.kind.level? with
      | some level => exact .inl ⟨_, .operator hl rfl⟩
      | none =>
          -- no operator follows: what matters is whether a parenthesis is left open
          by_cases hg : ∃ outer, (closeFrom 0 stack e).1 = .group :: outer
          · obtain ⟨outer, hg⟩ := hg
            have hc : closeFrom 0 stack e = (.group :: outer, (closeFrom 0 stack e).2) := by
              rw [← hg]
            by_cases hp : t.kind = .rightParen
            · exact .inl ⟨_, .closing hp hc⟩
            · exact .inr ⟨_, .unclosed hl hp hc⟩
          · exact .inr ⟨_, .whole hl rfl fun below h => hg ⟨below, h⟩⟩

theorem step_eq_ok_iff : step limit s t = .ok s' ↔ Move limit s t s' := by
  constructor
  · intro h
    -- each relation settles the step, so the step tells which of the two holds
    rcases move_or_stop limit s t with ⟨s'', hm⟩ | ⟨v, hs⟩
    · have : s'' = s' := Except.ok.inj (hm.step_eq.symm.trans h)
      exact this ▸ hm
    · rw [hs.step_eq] at h
      cases h
  · exact Move.step_eq

theorem step_eq_error_iff : step limit s t = .error v ↔ Stop limit s t v := by
  constructor
  · intro h
    rcases move_or_stop limit s t with ⟨s', hm⟩ | ⟨v', hs⟩
    · rw [hm.step_eq] at h
      cases h
    · have : v' = v := Except.error.inj (hs.step_eq.symm.trans h)
      exact this ▸ hs
  · exact Stop.step_eq

/-- A bound plays no part in a step that is taken without it, unless the new frame exceeds it. -/
theorem Move.within (h : Move none s t s') (hw : s'.held = none → Within limit s'.stack) :
    Move limit s t s' := by
  cases h with
  | operand hv => exact .operand hv
  | sign hu _ => exact .sign hu (hw rfl)
  | opening hp _ => exact .opening hp (hw rfl)
  | operator hl hc => exact .operator hl hc
  | closing hp hc => exact .closing hp hc

end LoxSyntax.Parse
