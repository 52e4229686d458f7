/-
# LoxSyntax.Parse.Recovery -- where a parse can go on, and how deep it has been

`IsBoundary` names the places where synchronization may rest, `horizon` the end of the input that no
cursor goes past, and `Reaches` the places that a cursor can be brought to by parsing and synchronizing.
`peak` is the most that the frames of an unbounded parse cost at any moment.
-/
import LoxSyntax.Parse.Cursor

namespace LoxSyntax

namespace Cursor

/-- A statement may begin at a position: the input ends there, a statement ends right before it, or the
token there begins one. -/
def IsBoundary (tokens : Sequence) (position : Nat) : Prop :=
  (tokens.get position).isEnd = true ∨
    (∃ before, position = before + 1 ∧ (tokens.get before).kind ∈ Kind.statementEnds) ∨
    (tokens.get position).kind ∈ Kind.statementStarts

/-- The position of the first end of the input from the cursor on. -/
def horizon (c : Cursor) : Nat := c.position + c.rest.findIdx Token.isEnd

/-- The tokens from the cursor through the first end of the input. -/
def window (c : Cursor) : List Token := c.rest.take (c.rest.findIdx Token.isEnd + 1)

/-- One cursor can be brought to another by parsing and synchronizing. -/
inductive Reaches (limit : Option Nat) : Cursor → Cursor → Prop where
  | refl (c : Cursor) : Reaches limit c c
  | parse {c d : Cursor} : Reaches limit c d → Reaches limit c (d.parse limit).2
  | synchronize {c d : Cursor} : Reaches limit c d → Reaches limit c d.synchronize

/-- A round of recovery: an attempt to parse, and the way to the next place to try. -/
def round (limit : Option Nat) (c : Cursor) : Cursor := (c.parse limit).2.synchronize

end Cursor

namespace Parse

/-- The most that the open frames cost whenever an operand is wanted, in a parse without a bound. -/
def peak (s : State) : List Token → Nat
  | [] => wanted s
  | t :: rest =>
    match step none s t with
    | .ok next => max (wanted s) (peak next rest)
    | .error _ => wanted s
where
  /-- What the open frames cost if an operand is wanted. -/
  wanted (s : State) : Nat := if s.held.isNone then cost s.stack else 0

end Parse

end LoxSyntax
