/-
# LoxSyntax.Proofs.Parse.Language -- the parser accepts its grammar, and its trees are the canonical ones

The grammar derives a list of tokens exactly if some canonical tree is written with it
(`derives_iff_yields`), so what is known of trees and runs carries over to the grammar, which knows of
neither.

An expression ENDS AT a position if the grammar derives the tokens before it and the token there could
not continue them. A parse is complete where an expression ends, and nowhere else; there is at most one
such place in any list of tokens. The tree it gives is canonical and is written with the tokens that were
taken, and every canonical tree is given for the tokens it is written with.
-/
import LoxSyntax.Parse.Grammar
import LoxSyntax.Proofs.Parse.Prefix

namespace LoxSyntax

/-- A token of a kind, with nothing else to tell it by. -/
def Token.bare (kind : Kind) : Token := ⟨kind, "", .nil, 1⟩

namespace Parse

variable {level level' : Level} {tokens : List Token} {e : Expr} {limit : Option Nat}

/-! ## The grammar and the trees -/

/-- What a level derives, every looser level derives. -/
theorem Derives.of_rank_le (h : Derives level tokens) (hle : level'.rank ≤ level.rank) :
    Derives level' tokens := by
  -- downward, one level at a time
  generalize hgap : level.rank - level'.rank = gap
  induction gap generalizing level' with
  | zero =>
      have heq : level'.rank = level.rank := by omega
      exact Level.rank_injective heq ▸ h
  | succ gap ih =>
      have hlt : level'.rank < level.rank := by omega
      have hnext : level'.next.rank = level'.rank + 1 := Level.rank_next hlt
      exact .next (ih (by omega) (by omega))

theorem derives_of_yields (hy : e.Yields tokens) (hc : e.Canonical) : Derives e.level tokens := by
  induction hy with
  | literal hv => exact .operand (by rw [hv]; rfl)
  | grouping hopen _ hclose ih => exact .group hopen ((ih hc).of_rank_le (Nat.zero_le _)) hclose
  | unary _ ih =>
      obtain ⟨hunary, hrank, hcanonical⟩ := hc
      exact .sign hunary ((ih hcanonical).of_rank_le hrank)
  | @binary left right operator _ _ _ _ ihl ihr =>
      obtain ⟨⟨level, hlevel, hleft, hright⟩, hcl, hcr⟩ := hc
      have hnext : level.next.rank = level.rank + 1 := Level.rank_next (Kind.level?_rank_lt hlevel)
      rw [Expr.level_binary hlevel]
      refine .chain hlevel ((ihl hcl).of_rank_le hleft) ((ihr hcr).of_rank_le ?_)
      rw [hnext]
      exact hright

theorem exists_tree_of_derives (h : Derives level tokens) :
    ∃ e : Expr, e.Canonical ∧ level.rank ≤ e.level.rank ∧ e.Yields tokens := by
  induction h with
  | operand hv =>
      obtain ⟨value, hv⟩ := Option.isSome_iff_exists.1 hv
      exact ⟨.literal value, trivial, Nat.le_refl _, .literal hv⟩
  | group hopen _ hclose ih =>
      obtain ⟨inner, hc, _, hy⟩ := ih
      exact ⟨.grouping inner, hc, Nat.le_refl _, .grouping hopen hy hclose⟩
  | @sign operator _ hunary _ ih =>
      obtain ⟨operand, hc, hrank, hy⟩ := ih
      exact ⟨.unary operator operand, ⟨hunary, hrank, hc⟩, Nat.le_refl _, .unary hy⟩
  | @next level _ _ ih =>
      obtain ⟨e, hc, hrank, hy⟩ := ih
      have hle : level.rank ≤ level.next.rank := by cases level <;> decide
      exact ⟨e, hc, Nat.le_trans hle hrank, hy⟩
  | @chain level operator _ _ hlevel _ _ ihl ihr =>
      obtain ⟨left, hcl, hleft, hyl⟩ := ihl
      obtain ⟨right, hcr, hright, hyr⟩ := ihr
      have hnext : level.next.rank = level.rank + 1 := Level.rank_next (Kind.level?_rank_lt hlevel)
      have heq : (Expr.binary left operator right).level = level := Expr.level_binary hlevel
      have hrank : level.rank ≤ (Expr.binary left operator right).level.rank :=
        Nat.le_of_eq (congrArg Level.rank heq.symm)
      exact ⟨.binary left operator right, ⟨⟨level, hlevel, hleft, by omega⟩, hcl, hcr⟩,
        hrank, .binary hyl hyr⟩

/-- A level derives the tokens of the canonical trees that bind at least as tightly. -/
theorem derives_iff_yields :
    Derives level tokens ↔ ∃ e : Expr, e.Canonical ∧ level.rank ≤ e.level.rank ∧ e.Yields tokens := by
  constructor
  · exact exists_tree_of_derives
  · rintro ⟨e, hc, hrank, hy⟩
    exact (derives_of_yields hy hc).of_rank_le hrank

theorem isExpression_iff : IsExpression tokens ↔ ∃ e : Expr, e.Canonical ∧ e.Yields tokens := by
  rw [IsExpression, derives_iff_yields]
  constructor
  · rintro ⟨e, hc, _, hy⟩
    exact ⟨e, hc, hy⟩
  · rintro ⟨e, hc, hy⟩
    exact ⟨e, hc, Nat.zero_le _, hy⟩

/-- Every tree can be written: parentheses and literals have tokens, and operators are tokens. -/
theorem exists_yields (e : Expr) : ∃ tokens, e.Yields tokens := by
  induction e with
  | literal value => exact ⟨[⟨.number, "", value, 1⟩], .literal rfl⟩
  | grouping inner ih =>
      obtain ⟨tokens, hy⟩ := ih
      exact ⟨Token.bare .leftParen :: tokens ++ [Token.bare .rightParen], .grouping rfl hy rfl⟩
  | unary operator operand ih =>
      obtain ⟨tokens, hy⟩ := ih
      exact ⟨operator :: tokens, .unary hy⟩
  | binary left operator right ihl ihr =>
      obtain ⟨before, hyl⟩ := ihl
      obtain ⟨after, hyr⟩ := ihr
      exact ⟨before ++ operator :: after, .binary hyl hyr⟩

/-! ## Where an expression ends -/

/-- The grammar derives the tokens before a position, and the token there is no binary operator. -/
def EndsAt (tokens : List Token) (position : Nat) : Prop :=
  IsExpression (tokens.take position) ∧
    ∃ t, tokens[position]? = some t ∧ t.kind ∉ Kind.binaryOperators.map Prod.snd

theorem level?_eq_none_iff (kind : Kind) :
    kind.level? = none ↔ kind ∉ Kind.binaryOperators.map Prod.snd := by
  rw [← Kind.level?_isSome_iff, Bool.not_eq_true, Option.isSome_eq_false_iff, Option.isNone_iff_eq_none]

/-- A run without a bound stops where an expression ends, with a tree of the tokens before. -/
theorem EndsAt.run_eq {position : Nat} (h : EndsAt tokens position) :
    ∃ e, run none .start tokens = ⟨.complete e, tokens.drop position⟩ := by
  obtain ⟨hexpr, t, ht, hkind⟩ := h
  obtain ⟨e, hc, hy⟩ := isExpression_iff.1 hexpr
  obtain ⟨stack, last, htakes, hclosed⟩ := takes_of_yields_start hy hc (hasRoom_none [] e)
  obtain ⟨hlt, hget⟩ := List.getElem?_eq_some_iff.1 ht
  have hdrop : tokens.drop position = t :: tokens.drop (position + 1) := by
    rw [List.drop_eq_getElem_cons hlt, hget]
  have hstop : Stop none ⟨stack, some last⟩ t (.complete e) :=
    .whole ((level?_eq_none_iff _).2 hkind) hclosed fun _ h => nomatch h
  refine ⟨e, ?_⟩
  calc run none .start tokens
      = run none .start (tokens.take position ++ tokens.drop position) := by rw [List.take_append_drop]
    _ = run none ⟨stack, some last⟩ (tokens.drop position) := htakes.run_eq _
    _ = ⟨.complete e, tokens.drop position⟩ := by rw [hdrop, hstop.run_eq]

theorem EndsAt.unique {j k : Nat} (hj : EndsAt tokens j) (hk : EndsAt tokens k) : j = k := by
  obtain ⟨e, hrunj⟩ := hj.run_eq
  obtain ⟨e', hrunk⟩ := hk.run_eq
  obtain ⟨_, _, hgetj, _⟩ := hj
  obtain ⟨_, _, hgetk, _⟩ := hk
  have hltj := (List.getElem?_eq_some_iff.1 hgetj).1
  have hltk := (List.getElem?_eq_some_iff.1 hgetk).1
  have hdrop : tokens.drop j = tokens.drop k := congrArg Outcome.rest (hrunj.symm.trans hrunk)
  have hlen := congrArg List.length hdrop
  rw [List.length_drop, List.length_drop] at hlen
  omega

/-- A parse that is complete stops where an expression ends. -/
theorem Attempt.endsAt {s : Sequence} {taken : List Token} {last : State} {t : Token}
    (h : Attempt limit (Cursor.start s) taken last t (.complete e)) : EndsAt s.toList taken.length := by
  obtain ⟨hy, hc, hlevel⟩ := h.complete
  obtain ⟨more, hrest⟩ := h.rest
  replace hrest : s.toList = taken ++ t :: more := hrest
  refine ⟨?_, t, ?_, (level?_eq_none_iff _).1 hlevel⟩
  · rw [hrest, List.take_left]
    exact isExpression_iff.2 ⟨e, hc, hy⟩
  · rw [hrest]
    simp

/-- Where an expression ends, an attempt is complete there. -/
theorem Attempt.eq_of_endsAt {s : Sequence} {taken : List Token} {last : State} {t : Token}
    {v : Verdict} {position : Nat} (h : Attempt none (Cursor.start s) taken last t v)
    (hend : EndsAt s.toList position) : taken.length = position ∧ ∃ e, v = .complete e := by
  obtain ⟨more, hrest⟩ := h.rest
  replace hrest : s.toList = taken ++ t :: more := hrest
  obtain ⟨e, hrun⟩ := hend.run_eq
  have hrun' : run none .start s.toList = ⟨v, t :: more⟩ := by
    rw [hrest, h.takes.run_eq, h.stop.run_eq]
  have hv : v = .complete e := congrArg Outcome.verdict (hrun'.symm.trans hrun)
  subst hv
  exact ⟨h.endsAt.unique hend, e, rfl⟩

/-- The parser accepts exactly its grammar. As long as the nesting of the tokens stays within the bound,
a parse from the first token on is complete at a position if and only if an expression ends there. An
expression ends at one position at most, in any list of tokens, and where it ends nowhere the parse is
refused. -/
theorem parse_complete_iff_endsAt (limit : Option Nat) (s : Sequence) :
    (Affordable limit .start s.toList → ∀ position,
      (∃ e, (Cursor.start s).parse limit = (.ok e, ⟨s, position⟩)) ↔ EndsAt s.toList position) ∧
    (∀ (tokens : List Token) (j k : Nat), EndsAt tokens j → EndsAt tokens k → j = k) ∧
    ((∀ position, ¬ EndsAt s.toList position) →
      ∃ rejection after, (Cursor.start s).parse limit = (.error rejection, after)) := by
  have hstart : (Cursor.start s).position < (Cursor.start s).tokens.length := Nat.succ_pos _
  refine ⟨?_, fun _ _ _ => EndsAt.unique, ?_⟩
  · intro hafford position
    obtain ⟨taken, last, t, v, hfree⟩ := exists_attempt none hstart
    have hattempt : Attempt limit (Cursor.start s) taken last t v := hfree.of_affordable hafford
    rw [hattempt.parse_eq]
    constructor
    · rintro ⟨e, heq⟩
      obtain ⟨hanswer, hafter⟩ := Prod.mk.inj heq
      have hposition : 0 + taken.length = position := congrArg Cursor.position hafter
      rw [← hposition, Nat.zero_add]
      cases v with
      | complete e => exact hattempt.endsAt
      | rejected cause => cases hanswer
    · intro hend
      obtain ⟨hlength, e, rfl⟩ := hfree.eq_of_endsAt hend
      refine ⟨e, ?_⟩
      rw [← hlength, Cursor.forward]
      simp [Cursor.start, Verdict.answer]
  · intro hno
    obtain ⟨taken, last, t, v, hattempt⟩ := exists_attempt limit hstart
    cases v with
    | complete e => exact absurd hattempt.endsAt (hno _)
    | rejected cause => exact ⟨_, _, hattempt.parse_eq⟩

/-- The tokens of `-nil * (nil) nil`: the expression ends in front of the last operand and nowhere else.
Behind it a parenthesis that nothing has opened is refused. -/
theorem product_ends_before_nil :
    let product : Sequence := ⟨[.bare .minus, .bare (.keyword .nilWord), .bare .star, .bare .leftParen,
      .bare (.keyword .nilWord), .bare .rightParen, .bare (.keyword .nilWord)], .bare .endOfInput, rfl⟩
    let unopened : Sequence := ⟨[.bare .rightParen], .bare .endOfInput, rfl⟩
    Affordable defaultLimit .start product.toList ∧ EndsAt product.toList 6 ∧
      (∀ position, EndsAt product.toList position → position = 6) ∧
      (∀ position, ¬ EndsAt unopened.toList position) ∧
      ∃ rejection after, (Cursor.start unopened).parse defaultLimit = (.error rejection, after) := by
  intro product unopened
  have hproduct : Affordable defaultLimit .start product.toList := by
    intro n hn
    cases hn
    decide
  have hunopened : Affordable defaultLimit .start unopened.toList := by
    intro n hn
    cases hn
    decide
  obtain ⟨hiff, hunique, _⟩ := parse_complete_iff_endsAt defaultLimit product
  obtain ⟨hiff', _, hrefused⟩ := parse_complete_iff_endsAt defaultLimit unopened
  have hend : EndsAt product.toList 6 := (hiff hproduct 6).1 ⟨_, rfl⟩
  have hno : ∀ position, ¬ EndsAt unopened.toList position := by
    intro position hends
    obtain ⟨e, hparse⟩ := (hiff' hunopened position).2 hends
    cases hparse
  exact ⟨hproduct, hend, fun position h => hunique _ _ _ h hend, hno, hrefused hno⟩

/-! ## Trees and tokens -/

/-- Trees and tokens correspond one to one. Whatever the bound, a parse that gives a tree gives a
canonical one, which is written with exactly the tokens that were taken. Conversely a canonical tree whose
nesting stays within the bound is the answer for any tokens that it is written with, and all of them are
taken; and every tree is written with some tokens. -/
theorem parse_ok_yields_and_yields_parse (limit : Option Nat) :
    (∀ (s : Sequence) (e : Expr) (position : Nat),
      (Cursor.start s).parse limit = (.ok e, ⟨s, position⟩) →
        e.Canonical ∧ e.Yields (s.toList.take position)) ∧
    (∀ (s : Sequence) (e : Expr), e.Canonical → (∀ n ∈ limit, e.nesting ≤ n) → e.Yields s.body →
      (Cursor.start s).parse limit = (.ok e, ⟨s, s.body.length⟩)) ∧
    ∀ e : Expr, ∃ tokens, e.Yields tokens := by
  refine ⟨?_, ?_, exists_yields⟩
  · intro s e position hparse
    have hstart : (Cursor.start s).position < (Cursor.start s).tokens.length := Nat.succ_pos _
    obtain ⟨taken, last, t, v, hattempt⟩ := exists_attempt limit hstart
    obtain ⟨more, hrest⟩ := hattempt.rest
    replace hrest : s.toList = taken ++ t :: more := hrest
    rw [hattempt.parse_eq] at hparse
    obtain ⟨hanswer, hafter⟩ := Prod.mk.inj hparse
    have hposition : 0 + taken.length = position := congrArg Cursor.position hafter
    cases v with
    | rejected cause => cases hanswer
    | complete e' =>
        obtain rfl : e' = e := Except.ok.inj hanswer
        obtain ⟨hy, hc, _⟩ := hattempt.complete
        refine ⟨hc, ?_⟩
        rw [hrest, ← hposition, Nat.zero_add, List.take_left]
        exact hy
  · intro s e hc hnesting hy
    have hroom : HasRoom limit [] e := by
      intro n hn
      simpa [cost] using hnesting n hn
    have hlast : s.last.kind = .endOfInput := by simpa [Token.isEnd] using s.last_isEnd
    have hlevel : s.last.kind.level? = none := by rw [hlast]; rfl
    obtain ⟨last, hattempt⟩ := attempt_of_yields (c := Cursor.start s) hy hc hroom rfl hlevel
    rw [hattempt.parse_eq, Cursor.forward]
    simp [Cursor.start, Verdict.answer]

/-- The tree of `-nil * (nil + nil)` and its tokens. -/
theorem product_of_group_is_read_back :
    let nil : Token := .bare (.keyword .nilWord)
    let s : Sequence := ⟨[.bare .minus, nil, .bare .star, .bare .leftParen, nil, .bare .plus, nil,
      .bare .rightParen], .bare .endOfInput, rfl⟩
    let e : Expr := .binary (.unary (.bare .minus) (.literal .nil)) (.bare .star)
      (.grouping (.binary (.literal .nil) (.bare .plus) (.literal .nil)))
    e.Canonical ∧ (∀ n ∈ defaultLimit, e.nesting ≤ n) ∧ e.Yields s.body ∧
      (Cursor.start s).parse defaultLimit = (.ok e, ⟨s, 8⟩) := by
  intro nil s e
  obtain ⟨hsound, hcomplete, _⟩ := parse_ok_yields_and_yields_parse defaultLimit
  obtain ⟨hc, hy⟩ := hsound s e 8 rfl
  have hnesting : ∀ n ∈ defaultLimit, e.nesting ≤ n := by
    intro n hn
    cases hn
    decide
  exact ⟨hc, hnesting, hy, hcomplete s e hc hnesting hy⟩

end Parse

end LoxSyntax
