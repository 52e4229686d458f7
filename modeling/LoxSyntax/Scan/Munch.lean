/-
# LoxSyntax.Scan.Munch -- the shapes of pieces, one rule each

`Munch shape text rest` says that `text`, with `rest` behind it, is a piece of the given shape. Each rule
names the characters of the piece and what may not follow it; together they are what maximal munch means
for this language. `shapeAt` is the function that finds the one rule that fits.
-/
import LoxSyntax.Scan.Piece

namespace LoxSyntax.Scan

open Number (isDigit)

/-- Somewhere in the text stands a mark that closes a comment. -/
def Closes (text : List Char) : Prop := ∃ before after, text = before ++ '*' :: '/' :: after

/-- The text does not start with a character of a class. -/
def StopsAt (class' : Char → Bool) (text : List Char) : Prop := ∀ c ∈ text.head?, class' c = false

/-- No piece longer than one character starts with `c`, nor does a token. -/
structure IsStray (c : Char) : Prop where
  noMark : Kind.single.lookup c = none
  noOperator : Kind.equalSuffix.lookup c = none
  noSlash : c ≠ '/'
  noBlank : c ∉ blanks
  noNewline : c ≠ '\n'
  noQuote : c ≠ Text.doubleQuote
  noDigit : isDigit c = false
  noLetter : isLetter c = false

/-- A text is a piece of a shape when a given rest follows it. -/
inductive Munch : Shape → List Char → List Char → Prop where
  | single {c : Char} {kind : Kind} {rest : List Char} :
      (c, kind) ∈ Kind.single → Munch (.mark kind) [c] rest
  | short {c : Char} {short long : Kind} {rest : List Char} :
      (c, short, long) ∈ Kind.equalSuffix → rest.head? ≠ some '=' → Munch (.mark short) [c] rest
  | long {c : Char} {short long : Kind} {rest : List Char} :
      (c, short, long) ∈ Kind.equalSuffix → Munch (.mark long) [c, '='] rest
  | slash {rest : List Char} :
      rest.head? ≠ some '/' → rest.head? ≠ some '*' → Munch (.mark .slash) ['/'] rest
  | lineComment {body rest : List Char} :
      '\n' ∉ body → StopsAt (· ≠ '\n') rest → Munch .comment ('/' :: '/' :: body) rest
  | blockComment {body rest : List Char} :
      ¬ Closes (body ++ ['*']) → Munch .comment ('/' :: '*' :: body ++ ['*', '/']) rest
  | openComment {body : List Char} :
      ¬ Closes body → Munch .openComment ('/' :: '*' :: body) []
  | blank {c : Char} {rest : List Char} : c ∈ blanks → Munch .blank [c] rest
  | newline {rest : List Char} : Munch .newline ['\n'] rest
  | string {inner rest : List Char} :
      Text.doubleQuote ∉ inner → Munch .string (Text.doubleQuote :: inner ++ [Text.doubleQuote]) rest
  | openString {inner : List Char} :
      Text.doubleQuote ∉ inner → Munch .openString (Text.doubleQuote :: inner) []
  | whole {digits rest : List Char} :
      digits ≠ [] → digits.all isDigit → StopsAt isDigit rest →
      (∀ after, rest = '.' :: after → StopsAt isDigit after) → Munch .numeral digits rest
  | fraction {whole fraction rest : List Char} :
      whole ≠ [] → whole.all isDigit → fraction ≠ [] → fraction.all isDigit → StopsAt isDigit rest →
      Munch .numeral (whole ++ '.' :: fraction) rest
  | word {c : Char} {others rest : List Char} :
      isLetter c = true → others.all isWordChar → StopsAt isWordChar rest →
      Munch .word (c :: others) rest
  | stray {c : Char} {rest : List Char} : IsStray c → Munch .stray [c] rest

/-- A list of pieces covers a text, each being what the text from it on starts with. -/
inductive Covers : List Piece → List Char → Prop where
  | nil : Covers [] []
  | cons {piece : Piece} {pieces : List Piece} {rest : List Char} :
      Munch piece.shape piece.chars rest → Covers pieces rest →
      Covers (piece :: pieces) (piece.chars ++ rest)

end LoxSyntax.Scan
