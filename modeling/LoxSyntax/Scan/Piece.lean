/-
# LoxSyntax.Scan.Piece -- the pieces that a source falls into

Reading a source cuts it, from the left and without a rest, into PIECES. Which piece comes next is
settled by the remaining text alone: `shapeAt` looks at its first character and as far beyond it as it
must, and gives the shape of the piece and the number of characters it takes after the first.

Every piece is as long as it can be. An operator takes an equals sign that follows it, a numeral takes a
point only together with a digit after it, a comment of one line stops before the line feed, and a
string or a comment between marks that is never closed takes all the rest. Since a piece is a number of
characters taken from the front, nothing is lost and nothing is read twice (`flatten_pieces`).
-/
import LoxSyntax.Number.Decimal
import LoxSyntax.Token.Kind
import LoxSyntax.Text.Newline
import LoxSyntax.Text.Quoted

namespace LoxSyntax.Scan

open Number (isDigit)

/-! ## Classes of characters -/

/-- A letter of the basic Latin alphabet, or the underscore. -/
def isLetter (c : Char) : Bool :=
  (decide ('a' ≤ c) && decide (c ≤ 'z')) || (decide ('A' ≤ c) && decide (c ≤ 'Z')) || c == '_'

def isWordChar (c : Char) : Bool := isLetter c || isDigit c

/-- The characters other than a line feed that separate tokens. -/
def blanks : List Char := ['\t', '\r', ' ']

/-! ## Shapes -/

/-- What a piece is. -/
inductive Shape where
  /-- Punctuation or an operator. -/
  | mark (kind : Kind)
  /-- A string with both its quotes. -/
  | string
  /-- A string without a closing quote. -/
  | openString
  | numeral
  | word
  | blank
  | newline
  | comment
  /-- A comment between marks without a closing mark. -/
  | openComment
  /-- A character that no token starts with. -/
  | stray
  deriving DecidableEq

/-- How many characters there are through the first mark that closes a comment, if one does. -/
def blockLength? : List Char → Option Nat
  | [] => none
  | '*' :: '/' :: _ => some 2
  | _ :: rest => (blockLength? rest).map (· + 1)

/-- The piece that starts with a slash. -/
def slashAt : List Char → Shape × Nat
  | '/' :: rest => (.comment, (rest.takeWhile (· ≠ '\n')).length + 1)
  | '*' :: rest =>
    match blockLength? rest with
    | some count => (.comment, count + 1)
    | none => (.openComment, rest.length + 1)
  | _ => (.mark .slash, 0)

/-- The piece that starts with a quote. -/
def stringAt (rest : List Char) : Shape × Nat :=
  let inner := rest.takeWhile (· ≠ Text.doubleQuote)
  if inner.length < rest.length then (.string, inner.length + 1) else (.openString, rest.length)

/-- How many characters of a numeral follow its first digit. -/
def numeralLength (rest : List Char) : Nat :=
  let whole := rest.takeWhile isDigit
  match rest.drop whole.length with
  | '.' :: after =>
    let fraction := after.takeWhile isDigit
    if fraction.isEmpty then whole.length else whole.length + 1 + fraction.length
  | _ => whole.length

/-- The shape of the piece that starts with `c`, and how many characters it takes of the text after
`c`. -/
def shapeAt (c : Char) (rest : List Char) : Shape × Nat :=
  match Kind.single.lookup c, Kind.equalSuffix.lookup c with
  | some kind, _ => (.mark kind, 0)
  | none, some (short, long) =>
    if rest.head? = some '=' then (.mark long, 1) else (.mark short, 0)
  | none, none =>
    if c = '/' then slashAt rest
    else if c ∈ blanks then (.blank, 0)
    else if c = '\n' then (.newline, 0)
    else if c = Text.doubleQuote then stringAt rest
    else if isDigit c then (.numeral, numeralLength rest)
    else if isLetter c then (.word, (rest.takeWhile isWordChar).length)
    else (.stray, 0)

/-! ## Pieces -/

/-- A stretch of source that is read at once: its shape, its first character and the others. -/
structure Piece where
  shape : Shape
  first : Char
  others : List Char
  deriving DecidableEq

namespace Piece

/-- The text of a piece. -/
def chars (p : Piece) : List Char := p.first :: p.others

/-- The text of a piece as a string. -/
def text (p : Piece) : String := String.ofList p.chars

/-- The number of line feeds in a piece. -/
def newlines (p : Piece) : Nat := Text.newlines p.chars

end Piece

/-- The piece that a text starting with `c` starts with. -/
def pieceAt (c : Char) (rest : List Char) : Piece :=
  let (shape, count) := shapeAt c rest
  ⟨shape, c, rest.take count⟩

/-- All the pieces of a text, in order. -/
def pieces : List Char → List Piece
  | [] => []
  | c :: rest => pieceAt c rest :: pieces (rest.drop (shapeAt c rest).2)
termination_by text => text.length
decreasing_by simp only [List.length_cons, List.length_drop]; omega

/-- The pieces of a text, joined, are the text. -/
theorem flatten_pieces (text : List Char) : (pieces text).flatMap Piece.chars = text := by
  fun_induction pieces text with
  | case1 => rfl
  | case2 c rest ih =>
    simp [ih, pieceAt, Piece.chars, List.take_append_drop]

end LoxSyntax.Scan
