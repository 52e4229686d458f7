/-
# LoxSyntax.Proofs.Parse.Yield -- a canonical tree is read from the tokens it is written with

A parser that wants an operand takes all the tokens of a canonical tree, whatever is begun already,
provided that the innermost frame accepts the tree (`TakenAs`). What it has then is not the tree
itself: the operators at the right edge of the tree may still be open. But closing makes no difference
between the two, at any rank that the tree binds at, and that is what the induction on the tree carries,
with one lemma for each constructor.
-/
import LoxSyntax.Parse.Canonical
import LoxSyntax.Proofs.Parse.Run

namespace LoxSyntax

namespace Parse

/-! ## Room for a tree -/

/-- A bound leaves room for a tree behind what is begun already. -/
def HasRoom (limit : Option Nat) (stack : List Frame) (e : Expr) : Prop :=
  ∀ n ∈ limit, cost stack + e.nesting ≤ n

theorem hasRoom_none (stack : List Frame) (e : Expr) : HasRoom none stack e := by
  intro n h
  cases h

variable {limit : Option Nat} {stack stack' : List Frame} {e e' : Expr} {tokens : List Token}

theorem HasRoom.of_le (h : HasRoom limit stack e)
    (hle : cost stack' + e'.nesting ≤ cost stack + e.nesting) : HasRoom limit stack' e' :=
  fun n hn => Nat.le_trans hle (h n hn)

theorem HasRoom.within (h : HasRoom limit stack e) : Within limit stack :=
  fun n hn => Nat.le_trans (Nat.le_add_right _ _) (h n hn)

/-! ## Trees and runs -/

/-- Whatever is begun, as long as it accepts the tree and leaves room for it, the tokens are taken, and
lead to a state that closes like the tree. -/
def TakenAs (limit : Option Nat) (e : Expr) (tokens : List Token) : Prop :=
  ∀ stack : List Frame, Fits stack e.level.rank → HasRoom limit stack e →
    ∃ stack' last, Takes limit ⟨stack, none⟩ tokens ⟨stack', some last⟩ ∧
      ∀ rank ≤ e.level.rank, closeFrom rank stack' last = closeFrom rank stack e

section Constructors

variable {inner operand left right : Expr} {operator open' close t : Token} {before after : List Token}
  {value : Value} {level : Level}

theorem takenAs_literal (h : t.operand? = some value) : TakenAs limit (.literal value) [t] := by
  intro stack _ _
  have hmove : Move limit ⟨stack, none⟩ t ⟨stack, some (.literal value)⟩ := .operand h
  exact ⟨stack, _, hmove.takes, fun _ _ => rfl⟩

theorem TakenAs.grouping (h : TakenAs limit inner tokens) (hopen : open'.kind = .leftParen)
    (hclose : close.kind = .rightParen) :
    TakenAs limit (.grouping inner) (open' :: tokens ++ [close]) := by
  intro stack _ hroom
  have hroom' : HasRoom limit (.group :: stack) inner :=
    hroom.of_le (by simp only [Expr.nesting, cost, Frame.cost]; omega)
  have hopening : Move limit ⟨stack, none⟩ open' ⟨.group :: stack, none⟩ :=
    .opening hopen hroom'.within
  -- a parenthesis demands nothing of what stands inside, and shuts the outer frames off from it
  have hfits : Fits (.group :: stack) inner.level.rank := fits_cons.2 (Nat.zero_le _)
  obtain ⟨stack', last, htakes, heq⟩ := h (.group :: stack) hfits hroom'
  have hinner : closeFrom 0 stack' last = (.group :: stack, inner) := by
    rw [heq 0 (Nat.zero_le _), closeFrom_group]
  have hclosing : Move limit ⟨stack', some last⟩ close ⟨stack, some (.grouping inner)⟩ :=
    .closing hclose hinner
  refine ⟨stack, .grouping inner, ?_, fun _ _ => rfl⟩
  exact .cons hopening (htakes.append hclosing.takes)

theorem TakenAs.unary (h : TakenAs limit operand tokens) (hunary : operator.kind.isUnary = true)
    (hrank : Level.unary.rank ≤ operand.level.rank) :
    TakenAs limit (.unary operator operand) (operator :: tokens) := by
  intro stack _ hroom
  have hroom' : HasRoom limit (.unary operator :: stack) operand :=
    hroom.of_le (by simp only [Expr.nesting, cost, Frame.cost]; omega)
  have hsign : Move limit ⟨stack, none⟩ operator ⟨.unary operator :: stack, none⟩ :=
    .sign hunary hroom'.within
  obtain ⟨stack', last, htakes, heq⟩ := h (.unary operator :: stack) (fits_cons.2 hrank) hroom'
  refine ⟨stack', last, .cons hsign htakes, ?_⟩
  -- the sign is still open, and every rank up to its own closes it
  intro rank hle
  rw [heq rank (Nat.le_trans hle hrank)]
  exact closeFrom_unary hle

theorem TakenAs.binary (hl : TakenAs limit left before) (hr : TakenAs limit right after)
    (hlevel : operator.kind.level? = some level) (hleft : level.rank ≤ left.level.rank)
    (hright : level.rank < right.level.rank) :
    TakenAs limit (.binary left operator right) (before ++ operator :: after) := by
  intro stack hfits hroom
  rw [Expr.level_binary hlevel] at hfits ⊢
  have hrooml : HasRoom limit stack left :=
    hroom.of_le (by simp only [Expr.nesting]; omega)
  obtain ⟨stackl, lastl, htakesl, heql⟩ := hl stack (hfits.mono hleft) hrooml
  -- the operator closes the left operand, and nothing that was begun before it
  have hclosed : closeFrom level.rank stackl lastl = (stack, left) := by
    rw [heql level.rank hleft]
    exact closeFrom_of_fits (Kind.level?_rank_lt hlevel) hfits
  have hoperator : Move limit ⟨stackl, some lastl⟩ operator ⟨.binary left operator :: stack, none⟩ :=
    .operator hlevel hclosed
  have hdemand : Fits (.binary left operator :: stack) right.level.rank := by
    rw [fits_cons, demand_binary hlevel]
    exact hright
  have hroomr : HasRoom limit (.binary left operator :: stack) right :=
    hroom.of_le (by simp only [Expr.nesting, cost, Frame.cost]; omega)
  obtain ⟨stackr, lastr, htakesr, heqr⟩ := hr _ hdemand hroomr
  refine ⟨stackr, lastr, htakesl.append (.cons hoperator htakesr), ?_⟩
  intro rank hle
  rw [heqr rank (by omega)]
  exact closeFrom_binary hlevel hle

end Constructors

/-- The tokens of a canonical tree are taken as the tree. -/
theorem takenAs_of_yields (hy : e.Yields tokens) (hc : e.Canonical) : TakenAs limit e tokens := by
  induction hy with
  | literal hv => exact takenAs_literal hv
  | grouping hopen _ hclose ih => exact (ih hc).grouping hopen hclose
  | unary _ ih =>
      obtain ⟨hunary, hrank, hcanonical⟩ := hc
      exact (ih hcanonical).unary hunary hrank
  | binary _ _ ihl ihr =>
      obtain ⟨⟨level, hlevel, hleft, hright⟩, hcl, hcr⟩ := hc
      exact (ihl hcl).binary (ihr hcr) hlevel hleft hright

/-- The tokens of a canonical tree are taken from the start, and lead to a state that closes to it. -/
theorem takes_of_yields_start (hy : e.Yields tokens) (hc : e.Canonical) (hroom : HasRoom limit [] e) :
    ∃ stack last, Takes limit .start tokens ⟨stack, some last⟩ ∧ closeFrom 0 stack last = ([], e) := by
  obtain ⟨stack, last, htakes, heq⟩ := takenAs_of_yields hy hc [] (fits_nil _) hroom
  exact ⟨stack, last, htakes, heq 0 (Nat.zero_le _)⟩

/-- A canonical tree is the answer where its tokens stand in front of one that is no binary operator. -/
theorem attempt_of_yields {c : Cursor} {t : Token} {more : List Token} (hy : e.Yields tokens)
    (hc : e.Canonical) (hroom : HasRoom limit [] e) (hrest : c.rest = tokens ++ t :: more)
    (ht : t.kind.level? = none) : ∃ last, Attempt limit c tokens last t (.complete e) := by
  obtain ⟨stack, last, htakes, hclosed⟩ := takes_of_yields_start hy hc hroom
  exact ⟨_, ⟨more, hrest⟩, htakes, .whole ht hclosed fun below h => nomatch h⟩

end Parse

end LoxSyntax
