/-
# LoxSyntax.Scan.Marks -- going through a source one character at a time

A reader of a source keeps MARKS: where it stands and on which line, where the piece began that it is reading
and on which line that was, and the tokens it has found. It looks at the character where it stands and at the
one behind it, and it only ever moves forward. A piece is begun by setting the marks of its start; what is read
of it then lies between these marks and the place of the reader.

To start over, the place, the line and the tokens are set back. The line of the last piece is not: it is set
again when the next piece begins.
-/
import LoxSyntax.Scan.Basic
import LoxSyntax.Diagnostic.Reporter

namespace LoxSyntax.Scan

open Number (isDigit)

/-- What a reader of a source leaves behind. -/
structure Marks where
  /-- Where the last piece began. -/
  start : Nat
  /-- Where the next piece would begin. -/
  current : Nat
  /-- The line of the next piece. -/
  line : Nat
  /-- The line of the last piece. -/
  startLine : Nat
  tokens : List Token

namespace Marks

/-- The marks of a reader that has not read yet. -/
def initial : Marks := ⟨0, 0, 1, 1, []⟩

/-- The marks of a reader that has read all of a source. -/
def finished (source : String) : Marks :=
  let last := (placed source).getLast?
  { start := (last.map (·.offset)).getD 0
    current := source.toList.length
    line := lastLine source
    startLine := (last.map (·.line)).getD 1
    tokens := Scan.tokens source }

/-! ## One character -/

/-- The character at which a reader of a text stands, if it is not at the end. -/
def peek? (text : List Char) (m : Marks) : Option Char := text[m.current]?

/-- The character behind the one at which a reader stands. -/
def peekNext? (text : List Char) (m : Marks) : Option Char := text[m.current + 1]?

/-- Moves on by one character. -/
def advance (m : Marks) : Marks := { m with current := m.current + 1 }

/-- Moves on over a character, and to the next line if it is a line feed. -/
def cross (c : Char) (m : Marks) : Marks :=
  { m with current := m.current + 1, line := if c = '\n' then m.line + 1 else m.line }

/-! ## As many characters as there are -/

/-- Moves on as long as the characters are of a class. Lines are not counted. -/
def advanceWhile (class' : Char → Bool) (text : List Char) (m : Marks) : Marks :=
  if _ : m.current < text.length then
    if class' text[m.current] then m.advance.advanceWhile class' text else m
  else m
termination_by text.length - m.current
decreasing_by simp only [advance]; omega

/-- Moves on as long as the characters are of a class, and counts the lines. -/
def crossWhile (class' : Char → Bool) (text : List Char) (m : Marks) : Marks :=
  if _ : m.current < text.length then
    if class' text[m.current] then (m.cross text[m.current]).crossWhile class' text else m
  else m
termination_by text.length - m.current
decreasing_by simp only [cross]; omega

/-- Moves on behind the mark that closes a comment, or to the end of the text if there is none. -/
def crossComment (text : List Char) (m : Marks) : Shape × Marks :=
  if _ : m.current < text.length then
    if text[m.current] = '*' ∧ m.peekNext? text = some '/' then (.comment, m.advance.advance)
    else (m.cross text[m.current]).crossComment text
  else (.openComment, m)
termination_by text.length - m.current
decreasing_by simp only [cross]; omega

/-! ## One piece -/

/-- Reads on behind a slash. -/
def readSlash (text : List Char) (m : Marks) : Shape × Marks :=
  if m.peek? text = some '/' then (.comment, m.advance.advanceWhile (· ≠ '\n') text)
  else if m.peek? text = some '*' then m.advance.crossComment text
  else (.mark .slash, m)

/-- Reads on behind the quote that opens a string. -/
def readString (text : List Char) (m : Marks) : Shape × Marks :=
  let behind := m.crossWhile (· ≠ Text.doubleQuote) text
  if behind.current < text.length then (.string, behind.advance) else (.openString, behind)

/-- Reads on behind the first digit of a numeral: a point is read only together with a digit behind it. -/
def readNumeral (text : List Char) (m : Marks) : Marks :=
  let whole := m.advanceWhile isDigit text
  if whole.peek? text = some '.' ∧ (whole.peekNext? text).any isDigit then
    whole.advance.advanceWhile isDigit text
  else whole

/-- Reads the rest of the piece that starts with `c`, from behind `c`, and tells its shape. -/
def read (text : List Char) (c : Char) (m : Marks) : Shape × Marks :=
  match Kind.single.lookup c, Kind.equalSuffix.lookup c with
  | some kind, _ => (.mark kind, m)
  | none, some (short, long) =>
    if m.peek? text = some '=' then (.mark long, m.advance) else (.mark short, m)
  | none, none =>
    if c = '/' then m.readSlash text
    else if c ∈ blanks then (.blank, m)
    else if c = '\n' then (.newline, { m with line := m.line + 1 })
    else if c = Text.doubleQuote then m.readString text
    else if isDigit c then (.numeral, m.readNumeral text)
    else if isLetter c then (.word, m.advanceWhile isWordChar text)
    else (.stray, m)

/-- The piece between the marks of its start and the place of the reader. -/
def piece (text : List Char) (shape : Shape) (c : Char) (m : Marks) : Placed :=
  ⟨⟨shape, c, text.extract (m.start + 1) m.current⟩, m.startLine, m.start⟩

/-- What is wrong with a piece of a shape, on the line that the reader has come to. -/
def fault? (shape : Shape) (c : Char) (m : Marks) : Option Fault :=
  match shape with
  | .stray => some (.unexpectedCharacter c m.line)
  | .openString => some (.unterminatedString m.line)
  | _ => none

/-- Marks the place of the reader as the start of a piece. -/
def beginPiece (m : Marks) : Marks := { m with start := m.current, startLine := m.line }

/-- Reads the piece that starts with `c`, where the reader stands. -/
def step (text : List Char) (c : Char) (m : Marks) : Marks × Option Fault :=
  let (shape, behind) := m.beginPiece.advance.read text c
  ({ behind with tokens := behind.tokens ++ (behind.piece text shape c).token?.toList },
    behind.fault? shape c)

/-! ## The whole source -/

section Forward

variable (class' : Char → Bool) (text : List Char) (c : Char) (m : Marks)

theorem current_le_advanceWhile : m.current ≤ (m.advanceWhile class' text).current := by
  fun_induction advanceWhile class' text m with
  | case1 m _ _ ih => exact Nat.le_of_succ_le ih
  | case2 | case3 => exact Nat.le_refl _

theorem current_le_crossWhile : m.current ≤ (m.crossWhile class' text).current := by
  fun_induction crossWhile class' text m with
  | case1 m _ _ ih => exact Nat.le_of_succ_le ih
  | case2 | case3 => exact Nat.le_refl _

theorem current_le_crossComment : m.current ≤ (m.crossComment text).2.current := by
  fun_induction crossComment text m with
  | case1 m _ _ => exact Nat.le_add_right _ 2
  | case2 m _ _ ih => exact Nat.le_of_succ_le ih
  | case3 => exact Nat.le_refl _

theorem current_le_readSlash : m.current ≤ (m.readSlash text).2.current := by
  unfold readSlash
  split
  · exact Nat.le_of_succ_le (current_le_advanceWhile (· ≠ '\n') text m.advance)
  · split
    · exact Nat.le_of_succ_le (current_le_crossComment text m.advance)
    · exact Nat.le_refl _

theorem current_le_readString : m.current ≤ (m.readString text).2.current := by
  have hle := current_le_crossWhile (· ≠ Text.doubleQuote) text m
  unfold readString
  dsimp only
  split
  · exact Nat.le_succ_of_le hle
  · exact hle

theorem current_le_readNumeral : m.current ≤ (m.readNumeral text).current := by
  have hle := current_le_advanceWhile isDigit text m
  unfold readNumeral
  dsimp only
  split
  · apply Nat.le_trans hle
    exact Nat.le_of_succ_le (current_le_advanceWhile isDigit text (m.advanceWhile isDigit text).advance)
  · exact hle

theorem current_le_read : m.current ≤ (m.read text c).2.current := by
  unfold read
  split
  · exact Nat.le_refl _
  · split
    · exact Nat.le_succ _
    · exact Nat.le_refl _
  · split
    next => exact current_le_readSlash text m
    split
    next => exact Nat.le_refl _
    split
    next => exact Nat.le_refl _
    split
    next => exact current_le_readString text m
    split
    next => exact current_le_readNumeral text m
    split
    next => exact current_le_advanceWhile isWordChar text m
    exact Nat.le_refl _

/-- Every step goes forward. -/
theorem current_lt_step : m.current < (m.step text c).1.current :=
  current_le_read text c m.beginPiece.advance

end Forward

/-- Reads pieces up to the end of a text; each fault is reported before the next piece is begun. -/
def scanFrom (text : List Char) (m : Marks) (reporter : Reporter) : Marks × Reporter :=
  if _ : m.current < text.length then
    (m.step text text[m.current]).1.scanFrom text
      (reporter.reportAll ((m.step text text[m.current]).2.toList.map Fault.diagnostic))
  else (m, reporter)
termination_by text.length - m.current
decreasing_by
  have hlt := current_lt_step text text[m.current] m
  omega

/-- The marks from which a scan starts; the line of the last piece is left as it was. -/
def rewind (m : Marks) : Marks := { m with start := 0, current := 0, line := 1, tokens := [] }

/-- Closes the tokens with an end of the input. -/
def close (m : Marks) : Marks := { m with tokens := m.tokens ++ [Token.endOfInput m.line] }

end Marks

end LoxSyntax.Scan
