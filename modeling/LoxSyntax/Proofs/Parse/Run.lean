/-
# LoxSyntax.Proofs.Parse.Run -- what a run of the parser can do

A run TAKES tokens, one move after the other, and then STOPS in front of a token or runs out of them.
The tokens of a sequence end with an end of the input, which no state takes, so a parse from a cursor
always stops in front of a token: `Attempt` names the tokens taken, the state they lead to, the token in
front of which it stops, and the verdict. `exists_attempt` and `Attempt.parse_eq` are all that is needed
of `Cursor.parse`.

A bound that a run never exceeds plays no part in it (`run_eq_of_affordable`).
-/
import LoxSyntax.Parse.Recovery
import LoxSyntax.Proofs.Parse.Step

namespace LoxSyntax

namespace Parse

variable {limit : Option Nat} {s s' s'' : State} {t : Token} {tokens rest : List Token}

/-! ## Runs of moves -/

/-- One state takes tokens, in order, and becomes another. -/
inductive Takes (limit : Option Nat) : State → List Token → State → Prop where
  | nil {s : State} : Takes limit s [] s
  | cons {s next s' : State} {t : Token} {rest : List Token} :
      Move limit s t next → Takes limit next rest s' → Takes limit s (t :: rest) s'

theorem Takes.append (h : Takes limit s tokens s') (h' : Takes limit s' rest s'') :
    Takes limit s (tokens ++ rest) s'' := by
  induction h with
  | nil => exact h'
  | cons hm _ ih => exact .cons hm (ih h')

theorem Move.takes (h : Move limit s t s') : Takes limit s [t] s' := .cons h .nil

/-- Tokens that are taken are passed over by a run. -/
theorem Takes.run_eq (h : Takes limit s tokens s') (rest : List Token) :
    run limit s (tokens ++ rest) = run limit s' rest := by
  induction h with
  | nil => rfl
  | cons hm _ ih =>
      rw [List.cons_append, run, hm.step_eq]
      exact ih

theorem Stop.run_eq {v : Verdict} (h : Stop limit s t v) (rest : List Token) :
    run limit s (t :: rest) = ⟨v, t :: rest⟩ := by
  rw [run, h.step_eq]

/-- How a run ends: it is out of tokens, or it stops in front of one. -/
inductive Ends (limit : Option Nat) (s : State) : Outcome → Prop where
  | exhausted : Ends limit s ⟨s.finish, []⟩
  | stopped {t : Token} {v : Verdict} {rest : List Token} :
      Stop limit s t v → Ends limit s ⟨v, t :: rest⟩

/-- A run takes some of the tokens, and ends in front of the others. -/
theorem exists_takes (limit : Option Nat) (s : State) (tokens : List Token) :
    ∃ taken last, tokens = taken ++ (run limit s tokens).rest ∧ Takes limit s taken last ∧
      Ends limit last (run limit s tokens) := by
  induction tokens generalizing s with
  | nil => exact ⟨[], s, rfl, .nil, .exhausted⟩
  | cons t rest ih =>
      rcases move_or_stop limit s t with ⟨next, hm⟩ | ⟨v, hs⟩
      · obtain ⟨taken, last, hsplit, htakes, hends⟩ := ih next
        have hrun : run limit s (t :: rest) = run limit next rest := by rw [run, hm.step_eq]
        rw [hrun]
        exact ⟨t :: taken, last, by rw [List.cons_append, ← hsplit], .cons hm htakes, hends⟩
      · rw [hs.run_eq]
        exact ⟨[], s, rfl, .nil, .stopped hs⟩

/-- No state takes an end of the input. -/
theorem not_move_of_isEnd (h : t.isEnd = true) : ¬ Move limit s t s' := by
  have hk : t.kind = .endOfInput := by simpa [Token.isEnd] using h
  intro hm
  cases hm with
  | operand hv => simp [Token.operand?, hk] at hv
  | sign hu _ => simp [Kind.isUnary, hk] at hu
  | opening hp _ => simp [hk] at hp
  | operator hl _ => simp [Kind.level?, hk] at hl
  | closing hp _ => simp [hk] at hp

theorem Takes.not_isEnd (h : Takes limit s tokens s') : ∀ t ∈ tokens, t.isEnd = false := by
  induction h with
  | nil => simp
  | cons hm _ ih =>
      intro t ht
      rcases List.mem_cons.1 ht with rfl | ht
      · exact Bool.eq_false_iff.2 fun hend => not_move_of_isEnd hend hm
      · exact ih t ht

/-! ## Bounds that are never exceeded -/

/-- Parsing the tokens from a state on, without a bound, never costs more than a bound allows. -/
def Affordable (limit : Option Nat) (s : State) (tokens : List Token) : Prop :=
  ∀ n ∈ limit, peak s tokens ≤ n

theorem wanted_le_peak (s : State) (tokens : List Token) : peak.wanted s ≤ peak s tokens := by
  cases tokens with
  | nil => exact Nat.le_refl _
  | cons t rest =>
      rw [peak]
      split
      · exact Nat.le_max_left _ _
      · exact Nat.le_refl _

theorem within_of_affordable (h : Affordable limit s tokens) (hheld : s.held = none) :
    Within limit s.stack := by
  intro n hn
  have hw : peak.wanted s = cost s.stack := by simp [peak.wanted, hheld]
  have hle := wanted_le_peak s tokens
  rw [hw] at hle
  exact Nat.le_trans hle (h n hn)

theorem Affordable.tail (hm : Move none s t s') (h : Affordable limit s (t :: rest)) :
    Affordable limit s' rest := by
  intro n hn
  have hle := h n hn
  rw [peak, hm.step_eq] at hle
  exact Nat.le_trans (Nat.le_max_right _ _) hle

/-- Without a bound nothing is given up, so what stops a run without a bound stops it with one. -/
theorem Stop.of_none {v : Verdict} (h : Stop none s t v) : Stop limit s t v := by
  cases h with
  | noOperand hv hu hp => exact .noOperand hv hu hp
  | tooDeep _ hw => exact absurd (within_none _) hw
  | unclosed hl hp hc => exact .unclosed hl hp hc
  | whole hl hc hno => exact .whole hl hc hno

theorem Takes.of_affordable (h : Takes none s tokens s') (hafford : Affordable limit s (tokens ++ rest)) :
    Takes limit s tokens s' := by
  induction h with
  | nil => exact .nil
  | cons hm _ ih =>
      -- a move that opens a frame leads to a state that wants an operand, and those are measured
      have hnext := hafford.tail hm
      exact .cons (hm.within (within_of_affordable hnext)) (ih hnext)

/-- A run that never costs more than the bound is the run without a bound. -/
theorem run_eq_of_affordable (h : Affordable limit s tokens) :
    run limit s tokens = run none s tokens := by
  induction tokens generalizing s with
  | nil => rfl
  | cons t rest ih =>
      rcases move_or_stop none s t with ⟨next, hm⟩ | ⟨v, hs⟩
      · have hnext := h.tail hm
        have hm' : Move limit s t next := hm.within (within_of_affordable hnext)
        rw [run, hm'.step_eq, run, hm.step_eq]
        exact ih hnext
      · have hs' : Stop limit s t v := hs.of_none
        rw [hs'.run_eq, hs.run_eq]

end Parse

/-! ## Places in a sequence -/

theorem Sequence.getElem?_toList (s : Sequence) {position : Nat} (h : position < s.length) :
    s.toList[position]? = some (s.get position) := by
  unfold Sequence.length at h
  rcases Nat.lt_or_ge position s.body.length with hlt | hge
  · simp [Sequence.toList, Sequence.get, List.getElem?_append_left hlt, hlt]
  · have heq : position = s.body.length := by omega
    subst heq
    simp [Sequence.toList, Sequence.get]

namespace Cursor

variable {c : Cursor} {limit : Option Nat}

theorem length_rest (c : Cursor) : c.rest.length = c.tokens.length - c.position := by
  rw [rest, List.length_drop, Sequence.length_toList]

/-- The cursor some tokens further on. -/
def forward (c : Cursor) (count : Nat) : Cursor := { c with position := c.position + count }

/-- The token at a place is the first of the tokens from there on. -/
theorem peek_forward {taken more : List Token} {t : Token} (h : c.rest = taken ++ t :: more) :
    (c.forward taken.length).peek = t := by
  have hlen := c.length_rest
  rw [h, List.length_append, List.length_cons] at hlen
  have hlt : c.position + taken.length < c.tokens.length := by omega
  have hget : c.tokens.toList[c.position + taken.length]? = some t := by
    rw [← List.getElem?_drop]
    show c.rest[taken.length]? = some t
    rw [h]
    simp
  rw [Sequence.getElem?_toList _ hlt] at hget
  exact Option.some.inj hget

theorem moveTo_eq_forward {taken more : List Token} (hc : c.position ≤ c.tokens.length)
    (h : c.rest = taken ++ more) : c.moveTo more = c.forward taken.length := by
  have hlen := c.length_rest
  rw [h, List.length_append] at hlen
  have hpos : c.tokens.length - more.length = c.position + taken.length := by omega
  rw [moveTo, forward, hpos]

/-- The tokens from a place in a sequence on end with its last token, which is an end of the input. -/
theorem rest_eq_concat (h : c.position < c.tokens.length) :
    ∃ body, c.rest = body ++ [c.tokens.last] := by
  refine ⟨c.tokens.body.drop c.position, ?_⟩
  have hle : c.position ≤ c.tokens.body.length := Nat.le_of_lt_succ h
  rw [rest, Sequence.toList, List.drop_append_of_le_length hle]

end Cursor

/-! ## Attempts -/

namespace Parse

/-- The answer to a verdict on the tokens in front of one. -/
def Verdict.answer (t : Token) : Verdict → Except Rejection Expr
  | .complete e => .ok e
  | .rejected cause => .error (.ofCause cause t)

/-- A parse from a cursor takes tokens, which lead to a state, and stops in front of a token with a
verdict. -/
structure Attempt (limit : Option Nat) (c : Cursor) (taken : List Token) (last : State) (t : Token)
    (v : Verdict) : Prop where
  rest : ∃ more, c.rest = taken ++ t :: more
  takes : Takes limit .start taken last
  stop : Stop limit last t v

variable {c : Cursor} {limit : Option Nat} {taken : List Token} {last : State} {t : Token} {v : Verdict}

/-- From every place in a sequence there is an attempt. -/
theorem exists_attempt (limit : Option Nat) (h : c.position < c.tokens.length) :
    ∃ taken last t v, Attempt limit c taken last t v := by
  obtain ⟨taken, last, hsplit, htakes, hends⟩ := exists_takes limit .start c.rest
  generalize hout : run limit .start c.rest = outcome at hsplit hends
  cases hends with
  | exhausted =>
      -- all tokens were taken, the end of the input among them
      obtain ⟨body, hbody⟩ := Cursor.rest_eq_concat h
      have hmem : c.tokens.last ∈ taken := by
        rw [List.append_nil] at hsplit
        rw [← hsplit, hbody]
        simp
      have hend := htakes.not_isEnd _ hmem
      rw [c.tokens.last_isEnd] at hend
      cases hend
  | @stopped t v more hs => exact ⟨taken, last, t, v, ⟨more, hsplit⟩, htakes, hs⟩

theorem Attempt.lt_length (h : Attempt limit c taken last t v) :
    c.position + taken.length < c.tokens.length := by
  obtain ⟨more, hrest⟩ := h.rest
  have hlen := c.length_rest
  rw [hrest, List.length_append, List.length_cons] at hlen
  omega

theorem Attempt.peek_eq (h : Attempt limit c taken last t v) : (c.forward taken.length).peek = t := by
  obtain ⟨more, hrest⟩ := h.rest
  exact Cursor.peek_forward hrest

/-- The answer of a parse is that of its attempt, and so is the place where it leaves the cursor. -/
theorem Attempt.parse_eq (h : Attempt limit c taken last t v) :
    c.parse limit = (v.answer t, c.forward taken.length) := by
  obtain ⟨more, hrest⟩ := h.rest
  have hout : expression limit c.rest = ⟨v, t :: more⟩ := by
    rw [expression, hrest, h.takes.run_eq, h.stop.run_eq]
  have hmove : c.moveTo (t :: more) = c.forward taken.length := by
    have hlt := h.lt_length
    exact Cursor.moveTo_eq_forward (by omega) hrest
  have hpeek := h.peek_eq
  simp only [Cursor.parse, hout, hmove]
  cases v with
  | complete e => rfl
  | rejected cause => rw [hpeek]; rfl

/-- A bound that is never exceeded can be left out of an attempt. -/
theorem Attempt.of_affordable (h : Attempt none c taken last t v)
    (hafford : Affordable limit .start c.rest) : Attempt limit c taken last t v := by
  obtain ⟨more, hrest⟩ := h.rest
  rw [hrest] at hafford
  exact ⟨⟨more, hrest⟩, h.takes.of_affordable hafford, h.stop.of_none⟩

end Parse

end LoxSyntax
