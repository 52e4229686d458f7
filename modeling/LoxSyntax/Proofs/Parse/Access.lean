/-
# LoxSyntax.Proofs.Parse.Access -- every access of a descent stays in bounds

Let an end of the input stand at a place `f` of a sequence. A descent is SAFE if its cursor is not behind `f`,
its accesses follow one another without a step back, and each of them is PROPER: what is read is not behind
`f`, unless it is the token before the cursor and is discarded, and what is used of the token before the
cursor is the token that was taken last. The one reading that may go wrong is the one before the first place,
which finds the last token of the sequence, and it is always discarded.

`Gives` says of a function on descents what it gives and where it leaves the cursor, and that it keeps a
descent safe. There is one lemma for each way of access.
-/
import LoxSyntax.Parse.Descent
import LoxSyntax.Proofs.Parse.Recovery

namespace LoxSyntax

variable {s : Sequence} {f : Nat}

/-! ## Single accesses -/

namespace Act

/-- What is asked of an access that comes after others. -/
structure Proper (s : Sequence) (f : Nat) (earlier : List Act) (act : Act) : Prop where
  index_le : ∀ index ∈ act.index? s, index ≤ f ∨ ∃ position, act = .lookBack position false
  taken_last : ∀ position, act = .lookBack position true →
    ∃ last, position = last + 1 ∧ lastTaken? earlier = some last

theorem position_le_after (act : Act) : act.position ≤ act.after := by
  cases act with
  | take position => exact Nat.le_succ position
  | look | lookBack => exact Nat.le_refl _

variable {earlier : List Act} {position : Nat}

theorem proper_look (h : position ≤ f) : Proper s f earlier (.look position) where
  index_le index hindex := by
    cases hindex
    exact .inl h
  taken_last := nofun

theorem proper_take : Proper s f earlier (.take position) where
  index_le := nofun
  taken_last := nofun

theorem proper_discarded : Proper s f earlier (.lookBack position false) where
  index_le _ _ := .inr ⟨position, rfl⟩
  taken_last := nofun

theorem proper_used (h : position < f) (hlast : lastTaken? earlier = some position) :
    Proper s f earlier (.lookBack (position + 1) true) where
  index_le index hindex := by
    cases hindex
    exact .inl (Nat.le_of_lt h)
  taken_last _ heq := by
    cases heq
    exact ⟨position, rfl, hlast⟩

theorem lastTaken?_concat_take (acts : List Act) (position : Nat) :
    lastTaken? (acts ++ [.take position]) = some position := by
  simp [lastTaken?, taken?]

theorem lastTaken?_concat (acts : List Act) {act : Act} (h : act.taken? = none) :
    lastTaken? (acts ++ [act]) = lastTaken? acts := by
  simp [lastTaken?, h]

end Act

/-! ## Safe descents -/

namespace Descent

/-- Every access of a descent has stayed in front of an end of the input or at it. -/
structure Safe (s : Sequence) (f : Nat) (d : Descent) : Prop where
  isEnd : (s.get f).isEnd = true
  lt_length : f < s.length
  tokens : d.cursor.tokens = s
  position_le : d.cursor.position ≤ f
  last : ∀ position, d.cursor.position = position + 1 → Act.lastTaken? d.acts = some position
  ordered : d.acts.Pairwise fun a b => a.after ≤ b.position
  after_le : ∀ act ∈ d.acts, act.after ≤ d.cursor.position
  proper : ∀ earlier act later, d.acts = earlier ++ act :: later → act.Proper s f earlier

theorem safe_start (hend : (s.get f).isEnd = true) (hlt : f < s.length) : Safe s f (start s) where
  isEnd := hend
  lt_length := hlt
  tokens := rfl
  position_le := Nat.zero_le f
  last := nofun
  ordered := .nil
  after_le := nofun
  proper earlier act later h := by simp [start] at h

variable {d : Descent} {act : Act}

/-- A proper access from where the cursor stands keeps a descent safe. -/
theorem Safe.concat (h : Safe s f d) (hproper : act.Proper s f d.acts)
    (hposition : act.position = d.cursor.position) (hbound : act.after ≤ f)
    (hlast : ∀ position, act.after = position + 1 → Act.lastTaken? (d.acts ++ [act]) = some position) :
    Safe s f ⟨{ d.cursor with position := act.after }, d.acts ++ [act]⟩ where
  isEnd := h.isEnd
  lt_length := h.lt_length
  tokens := h.tokens
  position_le := hbound
  last := hlast
  ordered := by
    rw [List.pairwise_append]
    refine ⟨h.ordered, List.pairwise_singleton _ _, ?_⟩
    intro a ha b hb
    rw [List.mem_singleton.1 hb, hposition]
    exact h.after_le a ha
  after_le a ha := by
    rcases List.mem_append.1 ha with ha | ha
    · exact Nat.le_trans (h.after_le a ha) (hposition ▸ act.position_le_after)
    · rw [List.mem_singleton.1 ha]
  proper earlier a later heq := by
    -- the access is the new one, or it was among those made before
    rcases List.eq_nil_or_concat later with rfl | ⟨later, b, rfl⟩
    · obtain ⟨rfl, hsingle⟩ := List.append_inj' heq rfl
      cases hsingle
      exact hproper
    · rw [List.concat_eq_append, ← List.cons_append, ← List.append_assoc] at heq
      exact h.proper earlier a later (List.append_inj' heq rfl).1

/-- An access that moves nothing keeps a descent safe. -/
theorem Safe.keep (h : Safe s f d) (hproper : act.Proper s f d.acts)
    (hposition : act.position = d.cursor.position) (hafter : act.after = d.cursor.position)
    (htaken : act.taken? = none) : Safe s f (d.keep act) := by
  have hkeep : d.keep act = ⟨{ d.cursor with position := act.after }, d.acts ++ [act]⟩ := by
    rw [hafter]
    rfl
  rw [hkeep]
  refine h.concat hproper hposition (hafter ▸ h.position_le) ?_
  intro position heq
  rw [Act.lastTaken?_concat _ htaken]
  exact h.last position (hafter ▸ heq)

/-- A safe descent whose cursor stands at a place. -/
structure SafeAt (s : Sequence) (f : Nat) (c : Cursor) (d : Descent) : Prop where
  safe : Safe s f d
  cursor_eq : d.cursor = c

variable {c : Cursor}

/-- Where the cursor of a safe descent stands, there is a token. -/
theorem SafeAt.position_lt (h : SafeAt s f c d) : c.position < c.tokens.length := by
  obtain ⟨h, rfl⟩ := h
  rw [h.tokens]
  exact Nat.lt_of_le_of_lt h.position_le h.lt_length

theorem SafeAt.position_le (h : SafeAt s f c d) : c.position ≤ f := by
  obtain ⟨h, rfl⟩ := h
  exact h.position_le

/-- In front of the end of the input a token can be taken. -/
theorem SafeAt.take (h : SafeAt s f c d) (hend : c.peek.isEnd = false) : SafeAt s f (c.forward 1) d.take := by
  obtain ⟨h, rfl⟩ := h
  have hne : d.cursor.position ≠ f := by
    intro heq
    have hpeek : d.cursor.peek = s.get f := by rw [Cursor.peek, h.tokens, heq]
    rw [hpeek, h.isEnd] at hend
    cases hend
  have hlt : d.cursor.position < f := Nat.lt_of_le_of_ne h.position_le hne
  refine ⟨h.concat Act.proper_take rfl hlt ?_, rfl⟩
  intro position heq
  rw [← Nat.succ.inj heq]
  exact Act.lastTaken?_concat_take _ _

/-! ## What the ways of access give -/

/-- A function gives a value and leaves the cursor at a place, and the descent is safe. -/
structure Gives {α : Type} (s : Sequence) (f : Nat) (result : α × Descent) (value : α) (c : Cursor) : Prop where
  value_eq : result.1 = value
  safe : SafeAt s f c result.2

/-- An answer without its bound. -/
def Answer.pair {α : Type} (a : Answer α d) : α × Descent := (a.answer, a.after)

theorem Gives.exists_eq {α : Type} {a : Answer α d} {value : α} (h : Gives s f a.pair value c) :
    ∃ after le, a = ⟨value, after, le⟩ ∧ SafeAt s f c after := by
  obtain ⟨answer, after, le⟩ := a
  obtain ⟨rfl, hsafe⟩ := h
  exact ⟨after, le, rfl, hsafe⟩

theorem SafeAt.peek (h : SafeAt s f c d) : Gives s f d.peek c.peek c := by
  obtain ⟨h, rfl⟩ := h
  exact ⟨rfl, h.keep (Act.proper_look h.position_le) rfl rfl rfl, rfl⟩

/-- The token before the cursor may be used behind the first place. -/
theorem SafeAt.previous_used (h : SafeAt s f c d) (hpos : 0 < c.position) :
    Gives s f (d.previous true) c.previous c := by
  obtain ⟨h, rfl⟩ := h
  obtain ⟨position, heq⟩ := Nat.exists_eq_succ_of_ne_zero (Nat.ne_of_gt hpos)
  have hle := h.position_le
  have hproper : Act.Proper s f d.acts (.lookBack d.cursor.position true) := by
    rw [heq]
    exact Act.proper_used (by omega) (h.last position heq)
  exact ⟨rfl, h.keep hproper rfl rfl rfl, rfl⟩

theorem SafeAt.previous_discarded (h : SafeAt s f c d) : Gives s f (d.previous false) c.previous c := by
  obtain ⟨h, rfl⟩ := h
  exact ⟨rfl, h.keep Act.proper_discarded rfl rfl rfl, rfl⟩

theorem SafeAt.atEnd (h : SafeAt s f c d) : Gives s f d.atEnd c.peek.isEnd c :=
  ⟨congrArg Token.isEnd h.peek.value_eq, h.peek.safe⟩

/-- In front of the end of the input, advancing gives the token that is taken. -/
theorem SafeAt.advance (h : SafeAt s f c d) (hend : c.peek.isEnd = false) :
    Gives s f d.advance c.peek (c.forward 1) := by
  have hnot : ¬d.atEnd.1 = true := by
    rw [h.atEnd.value_eq, hend]
    exact Bool.false_ne_true
  rw [Descent.advance, if_neg hnot]
  exact (h.atEnd.safe.take hend).previous_discarded

/-- At the end of the input, advancing moves nothing. -/
theorem SafeAt.advance_of_isEnd (h : SafeAt s f c d) (hend : c.peek.isEnd = true) :
    Gives s f d.advance c.previous c := by
  have hended : d.atEnd.1 = true := h.atEnd.value_eq.trans hend
  rw [Descent.advance, if_pos hended]
  exact h.atEnd.safe.previous_discarded

section Kinds

variable {kind : Kind}

theorem isEnd_eq_false_of_kind {t : Token} (h : t.kind = kind) (hkind : kind ≠ .endOfInput) :
    t.isEnd = false := by
  simp [Token.isEnd, h, hkind]

theorem SafeAt.check (h : SafeAt s f c d) (hkind : kind ≠ .endOfInput) :
    Gives s f (d.check kind) (decide (c.peek.kind = kind)) c := by
  by_cases hended : d.atEnd.1 = true
  · have hne : c.peek.kind ≠ kind := by
      intro heq
      rw [h.atEnd.value_eq, isEnd_eq_false_of_kind heq hkind] at hended
      cases hended
    rw [Descent.check, if_pos hended, decide_eq_false hne]
    exact ⟨rfl, h.atEnd.safe⟩
  · have hpeek := h.atEnd.safe.peek
    rw [Descent.check, if_neg hended]
    exact ⟨congrArg (fun t : Token => decide (t.kind = kind)) hpeek.value_eq, hpeek.safe⟩

theorem SafeAt.takeAny_of_mem (h : SafeAt s f c d) (kinds : List Kind) (hkinds : Kind.endOfInput ∉ kinds)
    (hmem : c.peek.kind ∈ kinds) :
    ∃ after lt, d.takeAny kinds = .took after lt ∧ SafeAt s f (c.forward 1) after := by
  induction kinds generalizing d with
  | nil => simp at hmem
  | cons kind kinds ih =>
      have hkind : kind ≠ .endOfInput := Ne.symm (List.ne_of_not_mem_cons hkinds)
      have hcheck := h.check hkind
      rw [Descent.takeAny]
      by_cases heq : c.peek.kind = kind
      · have htrue : (d.check kind).1 = true := hcheck.value_eq.trans (decide_eq_true heq)
        rw [dif_pos htrue]
        exact ⟨_, _, rfl, (hcheck.safe.advance (isEnd_eq_false_of_kind heq hkind)).safe⟩
      · have hfalse : ¬(d.check kind).1 = true := by simp [hcheck.value_eq, heq]
        obtain ⟨after, lt, hrest, hsafe⟩ :=
          ih hcheck.safe (List.not_mem_of_not_mem_cons hkinds) (List.mem_of_ne_of_mem heq hmem)
        rw [dif_neg hfalse, hrest]
        exact ⟨after, _, rfl, hsafe⟩

theorem SafeAt.takeAny_of_not_mem (h : SafeAt s f c d) (kinds : List Kind) (hkinds : Kind.endOfInput ∉ kinds)
    (hnot : c.peek.kind ∉ kinds) :
    ∃ after le, d.takeAny kinds = .stayed after le ∧ SafeAt s f c after := by
  induction kinds generalizing d with
  | nil => exact ⟨d, _, rfl, h⟩
  | cons kind kinds ih =>
      have hcheck := h.check (Ne.symm (List.ne_of_not_mem_cons hkinds))
      have hfalse : ¬(d.check kind).1 = true := by
        simp [hcheck.value_eq, List.ne_of_not_mem_cons hnot]
      obtain ⟨after, le, hrest, hsafe⟩ :=
        ih hcheck.safe (List.not_mem_of_not_mem_cons hkinds) (List.not_mem_of_not_mem_cons hnot)
      rw [Descent.takeAny, dif_neg hfalse, hrest]
      exact ⟨after, _, rfl, hsafe⟩

/-- What is used after a token has been taken is that token. -/
theorem SafeAt.takeAny_previous (h : SafeAt s f c d) (kinds : List Kind) (hkinds : Kind.endOfInput ∉ kinds)
    (hmem : c.peek.kind ∈ kinds) :
    ∃ after lt, d.takeAny kinds = .took after lt ∧ Gives s f (after.previous true) c.peek (c.forward 1) := by
  obtain ⟨after, lt, htake, hsafe⟩ := h.takeAny_of_mem kinds hkinds hmem
  exact ⟨after, lt, htake, hsafe.previous_used (Nat.succ_pos _)⟩

theorem SafeAt.refuse {α : Type} (h : SafeAt s f c d) (cause : Cause) :
    Gives s f (d.refuse (α := α) cause).pair (.error (.ofCause cause c.peek)) c :=
  ⟨congrArg (fun t => Except.error (Rejection.ofCause cause t)) h.peek.value_eq, h.peek.safe⟩

theorem SafeAt.consume (h : SafeAt s f c d) (kind : Kind) (hkind : kind ≠ .endOfInput) (cause : Cause)
    (heq : c.peek.kind = kind) :
    Gives s f (d.consume kind cause).pair (.ok c.peek) (c.forward 1) := by
  have hcheck := h.check hkind
  have htrue : (d.check kind).1 = true := hcheck.value_eq.trans (decide_eq_true heq)
  have hadvance := hcheck.safe.advance (isEnd_eq_false_of_kind heq hkind)
  rw [Descent.consume, dif_pos htrue]
  exact ⟨congrArg Except.ok hadvance.value_eq, hadvance.safe⟩

theorem SafeAt.consume_of_ne (h : SafeAt s f c d) (kind : Kind) (hkind : kind ≠ .endOfInput) (cause : Cause)
    (hne : c.peek.kind ≠ kind) :
    Gives s f (d.consume kind cause).pair (.error (.ofCause cause c.peek)) c := by
  have hcheck := h.check hkind
  have hfalse : ¬(d.check kind).1 = true := by simp [hcheck.value_eq, hne]
  have hrefuse := hcheck.safe.refuse (α := Token) cause
  rw [Descent.consume, dif_neg hfalse]
  exact ⟨hrefuse.value_eq, hrefuse.safe⟩

end Kinds

/-- A constant is taken if one stands at the cursor. -/
theorem SafeAt.takeConstant (h : SafeAt s f c d) (constants : List (Kind × Value))
    (hkinds : ∀ constant ∈ constants, constant.1 ≠ .endOfInput) :
    Gives s f (d.takeConstant constants).pair (constants.lookup c.peek.kind)
      (if (constants.lookup c.peek.kind).isSome then c.forward 1 else c) := by
  induction constants generalizing d with
  | nil => exact ⟨rfl, h⟩
  | cons constant constants ih =>
      obtain ⟨kind, value⟩ := constant
      have hkind : Kind.endOfInput ∉ [kind] := by
        rw [List.mem_singleton]
        exact Ne.symm (hkinds _ List.mem_cons_self)
      rw [Descent.takeConstant]
      by_cases heq : c.peek.kind = kind
      · obtain ⟨after, lt, htake, hsafe⟩ := h.takeAny_of_mem [kind] hkind (List.mem_singleton.2 heq)
        have hvalue : ((kind, value) :: constants).lookup c.peek.kind = some value := by simp [heq]
        rw [htake, hvalue]
        exact ⟨rfl, hsafe⟩
      · obtain ⟨after, le, htake, hsafe⟩ :=
          h.takeAny_of_not_mem [kind] hkind (mt List.mem_singleton.1 heq)
        have hvalue : ((kind, value) :: constants).lookup c.peek.kind = constants.lookup c.peek.kind := by
          simp only [List.lookup_cons, beq_eq_false_iff_ne.2 heq]
        have hrest := ih hsafe fun constant hmem => hkinds constant (List.mem_cons_of_mem _ hmem)
        rw [htake, hvalue]
        exact ⟨hrest.value_eq, hrest.safe⟩

/-- An operand is a constant, or else a number or a text. -/
theorem operand?_eq (t : Token) :
    t.operand? =
      (constants.lookup t.kind).or (if t.kind ∈ [.number, .string] then some t.literal else none) := by
  obtain ⟨kind, lexeme, literal, line⟩ := t
  cases kind with
  | keyword word => cases word <;> rfl
  | _ => rfl

/-- A literal is taken if one stands at the cursor, and its value is given. -/
theorem SafeAt.takeLiteral (h : SafeAt s f c d) :
    Gives s f d.takeLiteral.pair c.peek.operand?
      (if c.peek.operand?.isSome then c.forward 1 else c) := by
  obtain ⟨after, le, hconstant, hsafe⟩ := (h.takeConstant constants (by decide)).exists_eq
  rw [Descent.takeLiteral, hconstant, operand?_eq]
  cases hvalue : constants.lookup c.peek.kind with
  | some value =>
      rw [hvalue] at hsafe
      exact ⟨rfl, hsafe⟩
  | none =>
      rw [hvalue] at hsafe
      replace hsafe : SafeAt s f c after := hsafe
      by_cases hmem : c.peek.kind ∈ [.number, .string]
      · obtain ⟨after', lt, htake, hprevious⟩ := hsafe.takeAny_previous [.number, .string] (by decide) hmem
        simp only [htake, if_pos hmem]
        exact ⟨congrArg (fun t : Token => some t.literal) hprevious.value_eq, hprevious.safe⟩
      · obtain ⟨after', le', htake, hsafe'⟩ := hsafe.takeAny_of_not_mem [.number, .string] (by decide) hmem
        simp only [htake, if_neg hmem]
        exact ⟨rfl, hsafe'⟩

end Descent

end LoxSyntax
