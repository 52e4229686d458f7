/-
# LoxSyntax.Proofs.Parse.Refusal -- a refusal is reported once, at the earliest token

The parser is never too late: whatever has been read so far, some expression begins with it
(`Reads.extendable`), because what is begun can be completed by a literal and the parentheses that are
missing. It is never too early: a token that is not taken could not have stood there in any expression
(`not_extendable_of_stop`), because the parser takes all the tokens of every expression. So it can be
told from the language alone, without the parser, which token a refusal blames and for which cause.
-/
import LoxSyntax.Parse.Parser
import LoxSyntax.Proofs.Parse.Language
import LoxSyntax.Proofs.Parse.Recovery

namespace LoxSyntax

namespace Parse

variable {stack : List Frame} {e : Expr} {tokens taken more : List Token} {s last : State} {t : Token}
  {v : Verdict} {cause : Cause}

/-! ## Prefixes of expressions -/

theorem Extendable.of_append (h : Extendable (tokens ++ more)) : Extendable tokens := by
  obtain ⟨rest, hexpr⟩ := h
  exact ⟨more ++ rest, by rwa [← List.append_assoc]⟩

/-- What is begun around an operand can be completed: the parentheses are closed, the innermost first. -/
theorem Holds.extendable (h : Holds stack e tokens) : Extendable tokens := by
  induction stack generalizing e tokens with
  | nil =>
      obtain ⟨hy, hc⟩ := h.whole
      exact ⟨[], by rw [List.append_nil]; exact isExpression_iff.2 ⟨e, hc, hy⟩⟩
  | cons frame stack ih =>
      cases frame with
      | unary operator => exact ih h.close_unary
      | binary left operator => exact ih h.close_binary
      | group => exact (ih (h.close_group (.bare .rightParen) rfl)).of_append

/-- Some expression begins with what a state has read. -/
theorem Reads.extendable (h : Reads s tokens) : Extendable tokens := by
  cases h with
  | holding hholds _ => exact hholds.extendable
  | @wanting stack _ hbegun =>
      -- any literal will do as the operand that is wanted
      have hmove : Move none ⟨stack, none⟩ (.bare (.keyword .nilWord)) ⟨stack, some (.literal .nil)⟩ :=
        .operand rfl
      have hread := (Reads.wanting hbegun).move hmove
      cases hread with
      | holding hholds _ => exact hholds.extendable.of_append

/-- No expression begins with what was taken and the token that was not. -/
theorem not_extendable_of_stop (htakes : Takes none .start taken last) (hstop : Stop none last t v) :
    ¬ Extendable (taken ++ [t]) := by
  rintro ⟨more, hexpr⟩
  obtain ⟨e, hc, hy⟩ := isExpression_iff.1 hexpr
  obtain ⟨stack, held, hall, _⟩ := takes_of_yields_start hy hc (hasRoom_none [] e)
  -- the run over the whole expression takes every token, and stops at `t` all the same
  have hrun : run none .start (taken ++ [t] ++ more) = ⟨State.finish ⟨stack, some held⟩, []⟩ := by
    have h := hall.run_eq []
    rw [List.append_nil] at h
    rw [h, run]
  have hrun' : run none .start (taken ++ [t] ++ more) = ⟨v, t :: more⟩ := by
    rw [List.append_assoc, htakes.run_eq, List.singleton_append, hstop.run_eq]
  have hrest : [] = t :: more := congrArg Outcome.rest (hrun.symm.trans hrun')
  cases hrest

/-- After what was taken, a token can go on an expression exactly if the state takes it. -/
theorem extendable_concat_iff (htakes : Takes none .start taken last) :
    Extendable (taken ++ [t]) ↔ ∃ next, Move none last t next := by
  constructor
  · intro hext
    rcases move_or_stop none last t with hmove | ⟨v, hstop⟩
    · exact hmove
    · exact absurd hext (not_extendable_of_stop htakes hstop)
  · rintro ⟨next, hmove⟩
    exact ((reads_of_takes htakes).move hmove).extendable

/-! ## Causes -/

/-- Where an operand is wanted, no token closes a parenthesis. -/
theorem not_move_wanting_rightParen {next : State} (hkind : t.kind = .rightParen) :
    ¬ Move none ⟨stack, none⟩ t next := by
  intro hmove
  cases hmove with
  | operand hv => simp [Token.operand?, hkind] at hv
  | sign hunary _ => simp [Kind.isUnary, hkind] at hunary
  | opening hopen _ => simp [hkind] at hopen

/-- The cause of a refusal is a missing parenthesis if a closing one could have stood there, and a
missing operand otherwise. -/
theorem cause_of_stop (htakes : Takes none .start taken last)
    (hstop : Stop none last t (.rejected cause)) :
    (cause = .expectedParenthesis ∧ ExtendableBy .rightParen taken) ∨
      (cause = .expectedExpression ∧ ¬ ExtendableBy .rightParen taken) := by
  cases hstop with
  | noOperand _ _ _ =>
      refine .inr ⟨rfl, ?_⟩
      rintro ⟨close, hkind, hext⟩
      obtain ⟨next, hmove⟩ := (extendable_concat_iff htakes).1 hext
      exact not_move_wanting_rightParen hkind hmove
  | tooDeep _ hw => exact absurd (within_none _) hw
  | @unclosed stack outer held inner _ _ _ hclosed =>
      refine .inl ⟨rfl, .bare .rightParen, rfl, ?_⟩
      exact (extendable_concat_iff htakes).2 ⟨_, .closing rfl hclosed⟩

end Parse

/-! ## What a refusal blames -/

open Parse

/-- A diagnostic blames the token that stands some tokens behind a cursor, and it is the earliest one
that can be blamed: some expression begins with the tokens up to it, and none with the token as well. It
says that a parenthesis is missing if a closing one could stand in its place, and that an operand is
missing otherwise. -/
structure Diagnostic.BlamesEarliest (d : Diagnostic) (c : Cursor) (count : Nat) : Prop where
  inside : c.position + count < c.tokens.length
  kind : d.kind = .syntactic
  line : d.line = (c.forward count).peek.line
  place : d.place = if (c.forward count).peek.kind = .endOfInput then " at end"
    else " at '" ++ (c.forward count).peek.lexeme ++ "'"
  viable : Extendable (c.rest.take count)
  dead : ¬ Extendable (c.rest.take (count + 1))
  parenthesis : ExtendableBy .rightParen (c.rest.take count) →
    d.code = some "P002" ∧ d.message = "Expect ')' after expression."
  operand : ¬ ExtendableBy .rightParen (c.rest.take count) →
    d.code = some "P001" ∧ d.message = "Expect expression."

namespace Parse

variable {limit : Option Nat} {c : Cursor} {taken : List Token} {last : State} {t : Token}
  {v : Verdict} {cause : Cause}

theorem Attempt.take_rest (h : Attempt limit c taken last t v) :
    c.rest.take taken.length = taken ∧ c.rest.take (taken.length + 1) = taken ++ [t] := by
  obtain ⟨more, hrest⟩ := h.rest
  rw [hrest]
  constructor
  · exact List.take_left
  · have hsplit : taken ++ t :: more = (taken ++ [t]) ++ more := by simp
    rw [hsplit]
    exact List.take_left' (by simp)

/-- A refusal without a bound blames the earliest token. -/
theorem Attempt.blamesEarliest (h : Attempt none c taken last t (.rejected cause)) :
    (Rejection.ofCause cause t).diagnostic.BlamesEarliest c taken.length := by
  obtain ⟨htaken, hthrough⟩ := h.take_rest
  have hpeek := h.peek_eq
  have hcause := cause_of_stop h.takes h.stop
  refine ⟨h.lt_length, rfl, ?_, ?_, ?_, ?_, ?_, ?_⟩
  · rw [hpeek]
    rfl
  · rw [hpeek]
    simp [Rejection.ofCause, Diagnostic.atToken, Diagnostic.placeOf, Token.isEnd]
  · rw [htaken]
    exact (reads_of_takes h.takes).extendable
  · rw [hthrough]
    exact not_extendable_of_stop h.takes h.stop
  · rw [htaken]
    intro hext
    rcases hcause with ⟨rfl, _⟩ | ⟨_, hnot⟩
    · exact ⟨rfl, rfl⟩
    · exact absurd hext hnot
  · rw [htaken]
    intro hnot
    rcases hcause with ⟨_, hext⟩ | ⟨rfl, _⟩
    · exact absurd hext hnot
    · exact ⟨rfl, rfl⟩

end Parse

namespace Parser

/-- A syntax error is reported exactly once, and at the earliest token. From every cursor that parsing and
synchronizing lead to, as long as the nesting stays within the bound, a parse that gives a tree reports
nothing; one that gives none adds one diagnostic behind those held and leaves the cursor at the token that
it blames. -/
theorem parse_reports_earliest_once (limit : Option Nat) (s : Sequence) (c : Cursor)
    (hreach : Cursor.Reaches limit (.start s) c) (hafford : Affordable limit .start c.rest)
    (reporter : Reporter) :
    (∀ e after, (Parser.mk c reporter).parse limit = (some e, after) → after.reporter = reporter) ∧
    ∀ after, (Parser.mk c reporter).parse limit = (none, after) →
      ∃ d count, after = ⟨c.forward count, ⟨reporter.echoes, reporter.held ++ [d]⟩⟩ ∧
        d.BlamesEarliest c count := by
  have hc : c.position < c.tokens.length := (hreach.lt_length (Nat.succ_pos _)).2
  -- what a refusal means is known without the bound, which is put back for the answer alone
  obtain ⟨taken, last, t, v, hfree⟩ := exists_attempt none hc
  have hparse := (hfree.of_affordable hafford).parse_eq
  cases v with
  | complete e =>
      have heq : (Parser.mk c reporter).parse limit = (some e, ⟨c.forward taken.length, reporter⟩) := by
        simp only [parse, hparse, Verdict.answer]
      rw [heq]
      constructor
      · rintro _ _ ⟨⟩
        rfl
      · rintro _ ⟨⟩
  | rejected cause =>
      have heq : (Parser.mk c reporter).parse limit =
          (none, ⟨c.forward taken.length, reporter.report (Rejection.ofCause cause t).diagnostic⟩) := by
        simp only [parse, hparse, Verdict.answer]
      rw [heq]
      constructor
      · rintro _ _ ⟨⟩
      · rintro _ ⟨⟩
        exact ⟨_, _, rfl, hfree.blamesEarliest⟩

/-- The tokens of `* ; (nil nil`: after the first refusal the cursor is put behind the semicolon, and
from there the second operand is blamed for the parenthesis that is missing. -/
theorem second_operand_is_blamed :
    let s : Sequence := ⟨[.bare .star, .bare .semicolon, .bare .leftParen, .bare (.keyword .nilWord),
      .bare (.keyword .nilWord)], .bare .endOfInput, rfl⟩
    Cursor.Reaches defaultLimit (.start s) ⟨s, 2⟩ ∧ Affordable defaultLimit .start (Cursor.rest ⟨s, 2⟩) ∧
      ∃ d count, ((Parser.mk ⟨s, 2⟩ (.empty false)).parse defaultLimit).2 =
        ⟨Cursor.forward ⟨s, 2⟩ count, ⟨false, [d]⟩⟩ ∧ d.BlamesEarliest ⟨s, 2⟩ count := by
  intro s
  have hreach : Cursor.Reaches defaultLimit (.start s) ⟨s, 2⟩ := .synchronize (.parse (.refl _))
  have hafford : Affordable defaultLimit .start (Cursor.rest ⟨s, 2⟩) := by
    intro n hn
    cases hn
    decide
  exact ⟨hreach, hafford,
    (parse_reports_earliest_once defaultLimit s ⟨s, 2⟩ hreach hafford (.empty false)).2 _ rfl⟩

end Parser

end LoxSyntax
