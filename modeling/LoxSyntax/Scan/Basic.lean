/-
# LoxSyntax.Scan.Basic -- the tokens and the faults of a source

Each piece of a source is PLACED: it is given the line it starts on and the number of characters before
it. A placed piece is a token, a fault, or neither; the tokens of a source are those of its pieces and
an end of the input on the last line, and its faults are those of its pieces. So a fault never costs a
token: reading goes on with the next piece.

A token stands on the line where its piece starts. The fault of a string that is never closed stands on
the last line, where the source ends.
-/
import LoxSyntax.Scan.Piece
import LoxSyntax.Token.Sequence
import LoxSyntax.Diagnostic.Basic

namespace LoxSyntax.Scan

/-- A piece together with where it starts. -/
structure Placed where
  piece : Piece
  /-- The line that the piece starts on, counted from one. -/
  line : Nat
  /-- How many characters stand before the piece. -/
  offset : Nat

/-- Places pieces from a line and an offset on. -/
def place (line offset : Nat) : List Piece → List Placed
  | [] => []
  | piece :: rest =>
    ⟨piece, line, offset⟩ :: place (line + piece.newlines) (offset + piece.chars.length) rest

/-- The pieces of a source, placed from its first line on. -/
def placed (source : String) : List Placed := place 1 0 (pieces source.toList)

/-- The last line of a source. -/
def lastLine (source : String) : Nat := 1 + Text.newlines source.toList

namespace Placed

/-- The number that a numeral denotes. -/
def numeral (p : Placed) : Number.Double :=
  let whole := p.piece.chars.takeWhile Number.isDigit
  (Number.Decimal.ofNumeral whole (p.piece.chars.drop (whole.length + 1))).toDouble

/-- The token that a piece is, if it is one. -/
def token? (p : Placed) : Option Token :=
  let token (kind : Kind) (literal : Value) : Token := ⟨kind, p.piece.text, literal, p.line⟩
  match p.piece.shape with
  | .mark kind => some (token kind .nil)
  | .string => some (token .string (.text (String.ofList p.piece.others.dropLast)))
  | .numeral => some (token .number (.number p.numeral))
  | .word => some (token (Kind.ofWord p.piece.text) .nil)
  | .openString | .blank | .newline | .comment | .openComment | .stray => none

/-- The fault that a piece is, if it is one. -/
def fault? (p : Placed) : Option Fault :=
  match p.piece.shape with
  | .stray => some (.unexpectedCharacter p.piece.first p.line)
  | .openString => some (.unterminatedString (p.line + p.piece.newlines : Nat))
  | _ => none

end Placed

/-- The tokens of a source, closed by an end of the input. -/
def sequence (source : String) : Sequence :=
  ⟨(placed source).filterMap Placed.token?, Token.endOfInput (lastLine source), rfl⟩

/-- The tokens of a source. -/
def tokens (source : String) : List Token := (sequence source).toList

/-- The faults of a source, in order. -/
def faults (source : String) : List Fault := (placed source).filterMap Placed.fault?

/-- The diagnostics that report the faults of a source. -/
def diagnostics (source : String) : List Diagnostic := (faults source).map Fault.diagnostic

end LoxSyntax.Scan
