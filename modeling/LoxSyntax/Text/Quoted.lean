/-
# LoxSyntax.Text.Quoted -- a text between quotes, with escapes

A quoted text stands between single quotes, unless it holds a single quote and no double quote: then
between double quotes. Inside, the backslash and the quote in use are written after a backslash; line
feed, carriage return and tab have letters; every other character that is not printable is written as
its code point in hexadecimal, in two, four or eight digits after `x`, `u` or `U`.

Each escape starts with a backslash and no other character of the inside does, so the inside can be read
back one escape at a time, and the quote in use ends it.
-/
import LoxSyntax.Text.Printable

namespace LoxSyntax.Text

def singleQuote : Char := '\x27'

def doubleQuote : Char := '\x22'

/-- A natural in hexadecimal with at least `width` digits, in lower case. -/
def hexadecimal (width n : Nat) : List Char :=
  let digits := Nat.toDigits 16 n
  List.replicate (width - digits.length) '0' ++ digits

/-- The code point of a character after the letter that tells how many digits follow. -/
def escapeCode (c : Char) : List Char :=
  if c.toNat < 0x100 then 'x' :: hexadecimal 2 c.toNat
  else if c.toNat < 0x10000 then 'u' :: hexadecimal 4 c.toNat
  else 'U' :: hexadecimal 8 c.toNat

/-- A character as it stands inside quotes. -/
def escape (quote c : Char) : List Char :=
  if c = quote ∨ c = '\\' then ['\\', c]
  else if c = '\n' then ['\\', 'n']
  else if c = '\r' then ['\\', 'r']
  else if c = '\t' then ['\\', 't']
  else if isPrintable c then [c]
  else '\\' :: escapeCode c

/-- The quote that a text is put between. -/
def quoteFor (text : List Char) : Char :=
  if singleQuote ∈ text ∧ doubleQuote ∉ text then doubleQuote else singleQuote

/-- A text between quotes. -/
def quoted (text : String) : String :=
  let quote := quoteFor text.toList
  String.ofList (quote :: text.toList.flatMap (escape quote) ++ [quote])

end LoxSyntax.Text
