/-
# LoxSyntax.Token.Basic -- tokens and their two written forms

A token has a kind, the text it was read from, the value of that text if it is a literal, and the line
it starts on. `display` is the form of the token listing, where lexeme and value stand as they are;
`debug` is the form in which every field can be told, whatever characters it holds.
-/
import LoxSyntax.Value
import LoxSyntax.Token.Kind

namespace LoxSyntax

/-- A lexical token. The literal is nil for every kind but numbers and strings. -/
structure Token where
  kind : Kind
  lexeme : String
  literal : Value
  line : Int
  deriving DecidableEq

namespace Token

/-- The token that ends every source; it stands on the last line. -/
def endOfInput (line : Int) : Token := ⟨.endOfInput, "", .nil, line⟩

def isEnd (t : Token) : Bool := decide (t.kind = .endOfInput)

def isKeyword (t : Token) : Bool := t.kind.isKeyword

/-- The kind, the lexeme and the value, a space between each two. A token without a value keeps the
space before it. -/
def display (t : Token) : String :=
  t.kind.name ++ " " ++ t.lexeme ++ " " ++
    match t.literal with
    | .nil => ""
    | value => value.display

/-- The four fields, each in a form that can be told from the others. -/
def debug (t : Token) : String :=
  "Token(" ++ t.kind.name ++ ", " ++ Text.quoted t.lexeme ++ ", " ++ t.literal.literal ++ ", " ++
    toString t.line ++ ")"

/-- A token without its place. -/
def unplaced (t : Token) : Token := { t with line := 0 }

/-- Whether two tokens agree in every field, values being compared by `Value.same`. -/
def same (s t : Token) : Bool :=
  s.kind == t.kind && s.lexeme == t.lexeme && s.literal.same t.literal && s.line == t.line

end Token

end LoxSyntax
