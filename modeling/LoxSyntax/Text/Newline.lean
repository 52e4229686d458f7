/-
# LoxSyntax.Text.Newline -- the ends of lines

Text from a file may end its lines with a line feed, a carriage return, or both in that order;
`unifyNewlines` makes each of them one line feed. Text typed at a prompt is cut by `lines` at line feeds
alone.
-/
namespace LoxSyntax.Text

/-- Every line end as one line feed. -/
def unifyNewlines : List Char → List Char
  | [] => []
  | '\r' :: '\n' :: rest => '\n' :: unifyNewlines rest
  | c :: rest => (if c = '\r' then '\n' else c) :: unifyNewlines rest

/-- The number of line feeds in a text. -/
def newlines (text : List Char) : Nat := text.count '\n'

/-- The lines of a text without their line feeds. A last line need not be ended by one; an empty one is
no line. -/
def lines : List Char → List (List Char)
  | [] => []
  | c :: rest =>
    if c = '\n' then [] :: lines rest
    else match lines rest with
      | [] => [[c]]
      | line :: more => (c :: line) :: more

@[simp] theorem newlines_nil : newlines [] = 0 := rfl

@[simp] theorem newlines_append (a b : List Char) : newlines (a ++ b) = newlines a + newlines b := by
  simp [newlines]

end LoxSyntax.Text
