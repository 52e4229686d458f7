/-
# LoxSyntax.CommandLine.Arguments -- the arguments of the program

Arguments are first told apart one by one: flags, words, and the separator, behind which everything is a
word. A long flag may be cut short as long as one flag alone begins like that; a short flag may carry
further short flags behind it. What looks like a flag and is none is UNKNOWN, except that a negative
number, or anything with a space in it, is a word.

Then they are taken in order. The first word names the script. Help and version end the reading when
they are met, and so does a misuse of a flag; unknown arguments and words that are left over are
gathered, and reported together once everything else has been taken.
-/
import LoxSyntax.Text.Digit
import LoxSyntax.Text.Quoted
import LoxSyntax.Session.Basic

namespace LoxSyntax.CommandLine

/-! ## Flags -/

/-- A flag of the program. -/
inductive Flag where
  | help
  | tokens
  | rpn
  | verbose
  | version
  deriving DecidableEq

namespace Flag

def all : List Flag := [help, tokens, rpn, verbose, version]

/-- How a flag may be written, in order. -/
def spellings : Flag → List String
  | help => ["-h", "--help"]
  | tokens => ["--tokens"]
  | rpn => ["--rpn"]
  | verbose => ["-v", "--verbose"]
  | version => ["--version"]

/-- A flag with all its spellings. -/
def label (flag : Flag) : String := "/".intercalate flag.spellings

/-- Every spelling with its flag, in order. -/
def table : List (String × Flag) := all.flatMap fun flag => flag.spellings.map (·, flag)

/-- The flag of an exact spelling. -/
def ofSpelling? (spelling : String) : Option Flag := table.lookup spelling

/-- The mode that a flag asks for. -/
def mode? : Flag → Option Mode
  | tokens => some .tokens
  | rpn => some .reversePolish
  | help | verbose | version => none

end Flag

/-! ## Misuse -/

/-- Why arguments are refused. -/
inductive Misuse where
  /-- An argument begins like several flags. -/
  | ambiguous (argument : String) (candidates : List String)
  /-- A flag is given a value, though it takes none. -/
  | unwantedValue (flag : Flag) (value : String)
  /-- A flag comes after one that excludes it. -/
  | conflict (flag earlier : Flag)
  /-- Arguments are left over. -/
  | unrecognized (arguments : List String)
  deriving DecidableEq

/-- A misuse in words. -/
def Misuse.message : Misuse → String
  | ambiguous argument candidates =>
    "ambiguous option: " ++ argument ++ " could match " ++ ", ".intercalate candidates
  | unwantedValue flag value =>
    "argument " ++ flag.label ++ ": ignored explicit argument " ++ Text.quoted value
  | conflict flag earlier =>
    "argument " ++ flag.label ++ ": not allowed with argument " ++ earlier.label
  | unrecognized arguments => "unrecognized arguments: " ++ " ".intercalate arguments

/-! ## One argument by itself -/

/-- What an argument is. -/
inductive Argument where
  | word (text : String)
  | separator
  /-- A flag, written short or long, with the value attached to it if there is one. -/
  | option (flag : Flag) (short : Bool) (value : Option String)
  | unknown (text : String)
  deriving DecidableEq

/-- Whether a text is written like a negative number, with or without a point. A line feed may end it. -/
def isNegativeNumber (text : List Char) : Bool :=
  match text with
  | '-' :: number =>
    let number := if number.getLast? = some '\n' then number.dropLast else number
    let fraction := number.dropWhile Text.isDecimalDigit
    match fraction with
    | [] => !number.isEmpty
    | '.' :: digits => !digits.isEmpty && digits.all Text.isDecimalDigit
    | _ => false
  | _ => false

/-- A text cut at its first equals sign: what comes before, and what comes after if there is one. -/
def cutAtEquals (text : List Char) : String × Option String :=
  let before := text.takeWhile (· ≠ '=')
  (String.ofList before, (text.drop before.length).tail?.map String.ofList)

/-- Whether a spelling is that of a short flag. -/
def isShort (spelling : String) : Bool := decide (spelling.toList.take 2 ≠ ['-', '-'])

/-- The flags that an argument may stand for without spelling one exactly, each with the value attached
to it. -/
def candidates (argument : List Char) : List (String × Argument) :=
  match argument with
  | '-' :: '-' :: _ =>
    let (begun, value) := cutAtEquals argument
    (Flag.table.filter fun entry => begun.toList.isPrefixOf entry.1.toList).map
      fun entry => (entry.1, .option entry.2 (isShort entry.1) value)
  | '-' :: c :: rest =>
    (Flag.table.filter fun entry => entry.1.toList = ['-', c]).map
      fun entry => (entry.1, .option entry.2 true (some (String.ofList rest)))
  | _ => []

/-- An argument in front of the separator. -/
def Argument.ofText (argument : String) : Except Misuse Argument :=
  if argument.toList.head? ≠ some '-' ∨ argument = "-" then .ok (.word argument)
  else match Flag.ofSpelling? argument with
    | some flag => .ok (.option flag (isShort argument) none)
    | none =>
      let (spelling, value) := cutAtEquals argument.toList
      match value, Flag.ofSpelling? spelling with
      | some value, some flag => .ok (.option flag (isShort spelling) (some value))
      | _, _ =>
        match candidates argument.toList with
        | [(_, one)] => .ok one
        | [] =>
          if isNegativeNumber argument.toList ∨ ' ' ∈ argument.toList then .ok (.word argument)
          else .ok (.unknown argument)
        | several => .error (.ambiguous argument (several.map (·.1)))

/-- What each argument is; the first separator makes words of all that follow it. -/
def classify : List String → Except Misuse (List Argument)
  | [] => .ok []
  | argument :: rest =>
    if argument = "--" then .ok (.separator :: rest.map .word)
    else do
      let first ← Argument.ofText argument
      let others ← classify rest
      return first :: others

/-! ## The arguments together -/

/-- What the arguments ask for. -/
structure Options where
  mode : Mode
  verbose : Bool
  script : Option String
  deriving DecidableEq

/-- Why the reading of arguments ends without a run. -/
inductive Early where
  | help
  | version
  | misuse (misuse : Misuse)
  deriving DecidableEq

/-- The flags that a flag and its value stand for: a short flag is followed by the short flags that its
value spells, letter by letter. -/
def cluster (flag : Flag) : List Char → Except Misuse (List Flag)
  | [] => .ok [flag]
  | c :: rest =>
    match Flag.ofSpelling? (String.ofList ['-', c]) with
    | some next => (cluster next rest).map (flag :: ·)
    | none => .error (.unwantedValue flag (String.ofList (c :: rest)))

/-- The flags that a single argument stands for. -/
def flagsOf (flag : Flag) (short : Bool) : Option String → Except Misuse (List Flag)
  | none => .ok [flag]
  | some value =>
    if short ∧ value ≠ "" then cluster flag value.toList else .error (.unwantedValue flag value)

/-- What has been taken so far. -/
structure Taken where
  /-- The flag that settles the mode. -/
  modeFlag : Option Flag
  verbose : Bool
  script : Option String
  /-- Whether the script was the last argument taken; a separator right behind it goes with it. -/
  atScript : Bool
  /-- The arguments that nothing takes, in order. -/
  extras : List String

def Taken.nothing : Taken := ⟨none, false, none, false, []⟩

/-- Takes a flag. -/
def Taken.takeFlag (t : Taken) (flag : Flag) : Except Early Taken :=
  match flag with
  | .help => .error .help
  | .version => .error .version
  | .verbose => .ok { t with verbose := true }
  | .tokens | .rpn =>
    match t.modeFlag with
    | none => .ok { t with modeFlag := some flag }
    | some earlier => if earlier = flag then .ok t else .error (.misuse (.conflict flag earlier))

/-- Takes flags in order. -/
def Taken.takeFlags (t : Taken) : List Flag → Except Early Taken
  | [] => .ok t
  | flag :: rest => do (← t.takeFlag flag).takeFlags rest

/-- Takes an argument. -/
def Taken.take (t : Taken) : Argument → Except Early Taken
  | .word text =>
    match t.script with
    | none => .ok { t with script := some text, atScript := true }
    | some _ => .ok { t with atScript := false, extras := t.extras ++ [text] }
  | .separator =>
    if t.script.isNone ∨ t.atScript then .ok { t with atScript := false }
    else .ok { t with extras := t.extras ++ ["--"] }
  | .option flag short value =>
    match flagsOf flag short value with
    | .ok flags => { t with atScript := false }.takeFlags flags
    | .error misuse => .error (.misuse misuse)
  | .unknown text => .ok { t with atScript := false, extras := t.extras ++ [text] }

/-- Takes arguments in order. -/
def Taken.takeAll (t : Taken) : List Argument → Except Early Taken
  | [] => .ok t
  | argument :: rest => do (← t.take argument).takeAll rest

/-- What was taken, as options; what is left over is a misuse. -/
def Taken.options (t : Taken) : Except Early Options :=
  if t.extras = [] then
    .ok ⟨(t.modeFlag.bind Flag.mode?).getD .tree, t.verbose, t.script⟩
  else .error (.misuse (.unrecognized t.extras))

/-- Reads the arguments of the program. -/
def parseArguments (arguments : List String) : Except Early Options :=
  match classify arguments with
  | .error misuse => .error (.misuse misuse)
  | .ok classified => do (← Taken.nothing.takeAll classified).options

end LoxSyntax.CommandLine
