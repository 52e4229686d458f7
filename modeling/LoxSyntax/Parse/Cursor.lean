/-
# LoxSyntax.Parse.Cursor -- parsing at a place in a sequence of tokens

A cursor stands at a token of a sequence. `parse` reads an expression from there on and leaves the
cursor at the first token that was not taken: behind the expression, or at the token that was refused.
`synchronize` looks for the next place where a statement can begin. Both look only at the tokens from
the cursor on, and neither goes past an end of the input.
-/
import LoxSyntax.Parse.Basic
import LoxSyntax.Token.Sequence

namespace LoxSyntax

/-- A place in a sequence of tokens. -/
structure Cursor where
  tokens : Sequence
  position : Nat

namespace Cursor

/-- The first place of a sequence. -/
def start (tokens : Sequence) : Cursor := ⟨tokens, 0⟩

/-- The token at the cursor. -/
def peek (c : Cursor) : Token := c.tokens.get c.position

/-- The token before the cursor; at the first place it is the last token of the sequence. -/
def previous (c : Cursor) : Token := c.tokens.before c.position

/-- The tokens from the cursor on. -/
def rest (c : Cursor) : List Token := c.tokens.toList.drop c.position

/-- The place before the given rest of the sequence. -/
def moveTo (c : Cursor) (rest : List Token) : Cursor :=
  { c with position := c.tokens.length - rest.length }

/-- Reads an expression, or refuses the first token that does not belong to one. -/
def parse (limit : Option Nat) (c : Cursor) : Except Rejection Expr × Cursor :=
  let outcome := Parse.expression limit c.rest
  let after := c.moveTo outcome.rest
  match outcome.verdict with
  | .complete e => (.ok e, after)
  | .rejected cause => (.error (.ofCause cause after.peek), after)

/-- Skips tokens up to the next place where a statement may begin, given the token before them: right
after a token that ends a statement, before a token that begins one, or at the end of the input. -/
def skip (previous : Token) : List Token → List Token
  | [] => []
  | t :: rest =>
    if t.isEnd ∨ previous.kind ∈ Kind.statementEnds ∨ t.kind ∈ Kind.statementStarts then t :: rest
    else skip t rest

/-- Leaves the token at the cursor behind, unless it is an end of the input, and moves on to the next
place where a statement may begin. -/
def synchronize (c : Cursor) : Cursor :=
  match c.rest with
  | [] => c
  | t :: rest => if t.isEnd then c else c.moveTo (skip t rest)

end Cursor

end LoxSyntax
