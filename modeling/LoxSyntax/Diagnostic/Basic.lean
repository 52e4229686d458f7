/-
# LoxSyntax.Diagnostic.Basic -- what is wrong with a source, and where

A DIAGNOSTIC is a reported error: its kind, a line, the place on the line as far as it is known, a
message, and a code for the errors that have one. The library reports five causes, two lexical and three
syntactic, and each cause settles kind, code and message; a diagnostic of other wording can be built
from its fields.
-/
import LoxSyntax.Token.Basic

namespace LoxSyntax

namespace Diagnostic

/-- Whether an error lies in the characters or in the order of the tokens. -/
inductive Kind where
  | lexical
  | syntactic
  deriving DecidableEq

namespace Kind

def all : List Kind := [lexical, syntactic]

def name : Kind → String
  | lexical => "lexical"
  | syntactic => "syntax"

/-- The kind with a given name. -/
def ofName? (name : String) : Option Kind := all.find? (·.name == name)

/-- What is said of a name that belongs to no kind. -/
def unknownMessage (name : String) : String := Text.quoted name ++ " is not a valid ErrorKind"

theorem ofName?_name (kind : Kind) : ofName? kind.name = some kind := by cases kind <;> decide

end Kind

end Diagnostic

/-! ## Causes -/

/-- The errors that a source can hold. -/
inductive Cause where
  /-- No token starts with the character. -/
  | unexpectedCharacter
  /-- A string has no closing quote. -/
  | unterminatedString
  /-- An operand is missing. -/
  | expectedExpression
  /-- A parenthesis is not closed where it would have to be. -/
  | expectedParenthesis
  /-- More parentheses and signs are open at once than the parser allows. -/
  | nestedTooDeeply
  deriving DecidableEq

namespace Cause

def all : List Cause :=
  [unexpectedCharacter, unterminatedString, expectedExpression, expectedParenthesis, nestedTooDeeply]

def kind : Cause → Diagnostic.Kind
  | unexpectedCharacter | unterminatedString => .lexical
  | expectedExpression | expectedParenthesis | nestedTooDeeply => .syntactic

def code : Cause → String
  | unexpectedCharacter => "L001"
  | unterminatedString => "L002"
  | expectedExpression => "P001"
  | expectedParenthesis => "P002"
  | nestedTooDeeply => "P003"

def message : Cause → String
  | unexpectedCharacter => "Unexpected character."
  | unterminatedString => "Unterminated string."
  | expectedExpression => "Expect expression."
  | expectedParenthesis => "Expect ')' after expression."
  | nestedTooDeeply => "Expression nested too deeply."

end Cause

/-! ## Diagnostics -/

/-- A reported error. -/
structure Diagnostic where
  kind : Diagnostic.Kind
  line : Int
  /-- The place on the line, with the words that lead to it; empty if it is not known. -/
  place : String
  message : String
  code : Option String
  deriving DecidableEq

namespace Diagnostic

/-- A diagnostic in words. -/
def text (d : Diagnostic) : String :=
  "[line " ++ toString d.line ++ "] Error" ++ d.place ++ ": " ++ d.message

/-- The words that lead to a token: the end of the input has no lexeme to show. -/
def placeOf (token : Token) : String :=
  if token.isEnd then " at end" else " at '" ++ token.lexeme ++ "'"

/-- A lexical error, of which only the line is known. -/
def lexicalError (line : Int) (message : String) (code : Option String) : Diagnostic :=
  ⟨.lexical, line, "", message, code⟩

/-- A syntactic error at a token. -/
def atToken (token : Token) (message : String) (code : Option String) : Diagnostic :=
  ⟨.syntactic, token.line, placeOf token, message, code⟩

end Diagnostic

/-! ## Faults of a source -/

/-- A fault that the reader of characters finds and reads on from. -/
inductive Fault where
  | unexpectedCharacter (character : Char) (line : Int)
  | unterminatedString (line : Int)
  /-- A fault of other wording. -/
  | other (message : String) (line : Int) (code : Option String)
  deriving DecidableEq

namespace Fault

def line : Fault → Int
  | unexpectedCharacter _ line => line
  | unterminatedString line => line
  | other _ line _ => line

def message : Fault → String
  | unexpectedCharacter _ _ => Cause.message .unexpectedCharacter
  | unterminatedString _ => Cause.message .unterminatedString
  | other message _ _ => message

def code : Fault → Option String
  | unexpectedCharacter _ _ => some (Cause.code .unexpectedCharacter)
  | unterminatedString _ => some (Cause.code .unterminatedString)
  | other _ _ code => code

/-- The diagnostic that reports a fault. -/
def diagnostic (fault : Fault) : Diagnostic :=
  Diagnostic.lexicalError fault.line fault.message fault.code

/-- A fault in words, which are those of its diagnostic. -/
def text (fault : Fault) : String := fault.diagnostic.text

end Fault

/-- A refusal of a list of tokens: the diagnostic that reports it, and the token that was refused if
one is known. -/
structure Rejection where
  diagnostic : Diagnostic
  token : Option Token
  deriving DecidableEq

namespace Rejection

/-- The refusal of a token for one of the syntactic causes. -/
def ofCause (cause : Cause) (token : Token) : Rejection :=
  ⟨.atToken token cause.message (some cause.code), some token⟩

/-- A refusal in words, which are those of its diagnostic. -/
def text (r : Rejection) : String := r.diagnostic.text

end Rejection

end LoxSyntax
