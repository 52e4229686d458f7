/-
# LoxSyntax.Token.Kind -- the kinds of token

The kinds come in a fixed order and are numbered from one in it: punctuation, the operators that may
take an equals sign, the three kinds with open-ended lexemes, the reserved words, and the end of the
input. Two tables say how the kinds of punctuation and of operators are spelled; a reserved word is
spelled by its `Keyword.spelling`.
-/
namespace LoxSyntax

/-! ## Reserved words -/

/-- A reserved word. -/
inductive Keyword where
  | andWord
  | classWord
  | elseWord
  | falseWord
  | funWord
  | forWord
  | ifWord
  | nilWord
  | orWord
  | printWord
  | returnWord
  | superWord
  | thisWord
  | trueWord
  | varWord
  | whileWord
  deriving DecidableEq

namespace Keyword

/-- Every reserved word, in order. -/
def all : List Keyword :=
  [andWord, classWord, elseWord, falseWord, funWord, forWord, ifWord, nilWord, orWord, printWord,
    returnWord, superWord, thisWord, trueWord, varWord, whileWord]

/-- A reserved word as it stands in a source. -/
def spelling : Keyword → String
  | andWord => "and"
  | classWord => "class"
  | elseWord => "else"
  | falseWord => "false"
  | funWord => "fun"
  | forWord => "for"
  | ifWord => "if"
  | nilWord => "nil"
  | orWord => "or"
  | printWord => "print"
  | returnWord => "return"
  | superWord => "super"
  | thisWord => "this"
  | trueWord => "true"
  | varWord => "var"
  | whileWord => "while"

/-- The name of a reserved word as a kind of token. -/
def name : Keyword → String
  | andWord => "AND"
  | classWord => "CLASS"
  | elseWord => "ELSE"
  | falseWord => "FALSE"
  | funWord => "FUN"
  | forWord => "FOR"
  | ifWord => "IF"
  | nilWord => "NIL"
  | orWord => "OR"
  | printWord => "PRINT"
  | returnWord => "RETURN"
  | superWord => "SUPER"
  | thisWord => "THIS"
  | trueWord => "TRUE"
  | varWord => "VAR"
  | whileWord => "WHILE"

/-- The reserved word that a whole word spells. -/
def ofSpelling? (word : String) : Option Keyword := all.find? (·.spelling == word)

theorem mem_all (k : Keyword) : k ∈ all := by cases k <;> decide

end Keyword

/-! ## Kinds -/

/-- A kind of token. -/
inductive Kind where
  | leftParen
  | rightParen
  | leftBrace
  | rightBrace
  | comma
  | dot
  | minus
  | plus
  | semicolon
  | slash
  | star
  | bang
  | bangEqual
  | equal
  | equalEqual
  | greater
  | greaterEqual
  | less
  | lessEqual
  | identifier
  | string
  | number
  | keyword (word : Keyword)
  | endOfInput
  deriving DecidableEq

namespace Kind

/-- Every kind, in order. -/
def all : List Kind :=
  [leftParen, rightParen, leftBrace, rightBrace, comma, dot, minus, plus, semicolon, slash, star,
    bang, bangEqual, equal, equalEqual, greater, greaterEqual, less, lessEqual,
    identifier, string, number] ++ Keyword.all.map keyword ++ [endOfInput]

/-- The name of a kind in listings. -/
def name : Kind → String
  | leftParen => "LEFT_PAREN"
  | rightParen => "RIGHT_PAREN"
  | leftBrace => "LEFT_BRACE"
  | rightBrace => "RIGHT_BRACE"
  | comma => "COMMA"
  | dot => "DOT"
  | minus => "MINUS"
  | plus => "PLUS"
  | semicolon => "SEMICOLON"
  | slash => "SLASH"
  | star => "STAR"
  | bang => "BANG"
  | bangEqual => "BANG_EQUAL"
  | equal => "EQUAL"
  | equalEqual => "EQUAL_EQUAL"
  | greater => "GREATER"
  | greaterEqual => "GREATER_EQUAL"
  | less => "LESS"
  | lessEqual => "LESS_EQUAL"
  | identifier => "IDENTIFIER"
  | string => "STRING"
  | number => "NUMBER"
  | keyword word => word.name
  | endOfInput => "EOF"

/-- The position of a kind among all kinds, counted from one. -/
def ordinal (kind : Kind) : Nat := all.idxOf kind + 1

/-- The kind with a given name. -/
def ofName? (name : String) : Option Kind := all.find? (·.name == name)

def isKeyword : Kind → Bool
  | keyword _ => true
  | _ => false

theorem mem_all (k : Kind) : k ∈ all := by
  cases k with
  | keyword word => cases word <;> decide
  | _ => decide

/-! ## Spelling -/

/-- The kinds that are spelled by one character, whatever comes after it. -/
def single : List (Char × Kind) :=
  [('(', leftParen), (')', rightParen), ('\x7b', leftBrace), ('\x7d', rightBrace), (',', comma),
    ('.', dot), ('-', minus), ('+', plus), (';', semicolon), ('*', star)]

/-- The characters that an equals sign may extend, each with its kind alone and with the sign. -/
def equalSuffix : List (Char × Kind × Kind) :=
  [('!', bang, bangEqual), ('=', equal, equalEqual), ('<', less, lessEqual),
    ('>', greater, greaterEqual)]

/-- The kind of a whole word: its reserved word, or an identifier. -/
def ofWord (word : String) : Kind :=
  match Keyword.ofSpelling? word with
  | some reserved => keyword reserved
  | none => identifier

/-! ## Statements -/

/-- The kinds that begin a statement. -/
def statementStarts : List Kind :=
  [keyword .classWord, keyword .funWord, keyword .varWord, keyword .forWord, keyword .ifWord,
    keyword .whileWord, keyword .printWord, keyword .returnWord]

/-- The kinds that end a statement. -/
def statementEnds : List Kind := [semicolon]

end Kind

end LoxSyntax
