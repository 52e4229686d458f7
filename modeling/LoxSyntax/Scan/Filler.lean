/-
# LoxSyntax.Scan.Filler -- what may stand between lexemes

A FILLER is made of blanks, line feeds and comments with an end of their own. A GAP is a filler that
starts with a blank or a line feed, so no lexeme before it can run on into it. Lexemes are LAID OUT by a
text if it holds them in order, with gaps between them.

`blanked` goes the other way: it makes blanks of the pieces of a source that are at fault.
-/
import LoxSyntax.Scan.Munch

namespace LoxSyntax.Scan

/-- Blanks, line feeds and comments that end. -/
inductive Filler : List Char → Prop where
  | nil : Filler []
  | blank {c : Char} {rest : List Char} : c ∈ blanks → Filler rest → Filler (c :: rest)
  | newline {rest : List Char} : Filler rest → Filler ('\n' :: rest)
  | lineComment {body rest : List Char} :
      '\n' ∉ body → Filler rest → Filler ('/' :: '/' :: body ++ '\n' :: rest)
  | blockComment {body rest : List Char} :
      ¬ Closes (body ++ ['*']) → Filler rest → Filler ('/' :: '*' :: body ++ '*' :: '/' :: rest)

/-- A filler that starts with a blank or a line feed. -/
structure Gap (text : List Char) : Prop where
  filler : Filler text
  separates : ∃ c ∈ text.head?, c ∈ blanks ∨ c = '\n'

/-- Lexemes with a gap before each, and a gap or nothing at the end. -/
inductive LaidBehind : List (List Char) → List Char → Prop where
  | nothing : LaidBehind [] []
  | gap {gap : List Char} : Gap gap → LaidBehind [] gap
  | lexeme {gap lexeme text : List Char} {lexemes : List (List Char)} :
      Gap gap → LaidBehind lexemes text → LaidBehind (lexeme :: lexemes) (gap ++ lexeme ++ text)

/-- A text that holds lexemes in order, with gaps between them and any filler before the first. -/
inductive LaidOut : List (List Char) → List Char → Prop where
  | filler {text : List Char} : Filler text → LaidOut [] text
  | lexemes {filler lexeme text : List Char} {lexemes : List (List Char)} :
      Filler filler → LaidBehind lexemes text →
      LaidOut (lexeme :: lexemes) (filler ++ lexeme ++ text)

/-- A piece with a blank for each of its characters, line feeds apart, if it is at fault. -/
def Piece.blanked (p : Piece) : List Char :=
  match p.shape with
  | .stray | .openString => p.chars.map fun c => if c = '\n' then c else ' '
  | _ => p.chars

/-- A source with blanks for what is at fault in it. -/
def blanked (source : String) : String :=
  String.ofList ((pieces source.toList).flatMap Piece.blanked)

/-- The last piece of a source is a string or a comment that is never closed. -/
def EndsOpen (source : String) : Prop :=
  ∃ p ∈ (pieces source.toList).getLast?, p.shape = .openString ∨ p.shape = .openComment

theorem length_blanked (p : Piece) : p.blanked.length = p.chars.length := by
  unfold Piece.blanked
  split <;> simp only [List.length_map]

end LoxSyntax.Scan
