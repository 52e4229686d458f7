/-
# LoxSyntax.Parse.Grammar -- the grammar as a relation

`Derives level tokens` says that the rule of a level derives a list of tokens. A rule of the form
`operand ( operator operand )*` is given by its two ways to end: with one operand, or with an operator
and one more operand behind what it derives already.

The relation does not know of trees, stacks or cursors. `Extendable` and `ExtendableBy` say of a list of
tokens that an expression can begin with it.
-/
import LoxSyntax.Parse.Level

namespace LoxSyntax.Parse

/-- The rule of a level derives a list of tokens. -/
inductive Derives : Level → List Token → Prop where
  | operand {t : Token} : t.operand?.isSome = true → Derives .primary [t]
  | group {open' close : Token} {inner : List Token} :
      open'.kind = .leftParen → Derives .equality inner → close.kind = .rightParen →
      Derives .primary (open' :: inner ++ [close])
  | sign {operator : Token} {operand : List Token} :
      operator.kind.isUnary = true → Derives .unary operand → Derives .unary (operator :: operand)
  | next {level : Level} {tokens : List Token} :
      Derives level.next tokens → Derives level tokens
  | chain {level : Level} {operator : Token} {left right : List Token} :
      operator.kind.level? = some level → Derives level left → Derives level.next right →
      Derives level (left ++ operator :: right)

/-- The grammar derives an expression. -/
abbrev IsExpression (tokens : List Token) : Prop := Derives .equality tokens

/-- Some expression begins with the tokens. -/
def Extendable (tokens : List Token) : Prop := ∃ more, IsExpression (tokens ++ more)

/-- Some expression begins with the tokens and a token of a kind behind them. -/
def ExtendableBy (kind : Kind) (tokens : List Token) : Prop :=
  ∃ t : Token, t.kind = kind ∧ Extendable (tokens ++ [t])

/-- No rule derives the empty list. -/
theorem Derives.ne_nil {level : Level} {tokens : List Token} (h : Derives level tokens) :
    tokens ≠ [] := by
  induction h with
  | operand => simp
  | group => simp
  | sign => simp
  | next _ ih => exact ih
  | chain => simp

end LoxSyntax.Parse
