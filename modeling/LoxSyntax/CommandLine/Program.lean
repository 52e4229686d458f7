/-
# LoxSyntax.CommandLine.Program -- a whole run of the program

The arguments, the folder it is started in and what is typed at it settle all that a run does: what it
writes to its two streams and how it ends. The log goes to the stream of diagnostics; only its errors
are shown unless more is asked for.
-/
import LoxSyntax.CommandLine.Arguments

namespace LoxSyntax.CommandLine

/-! ## Fixed texts -/

/-- How the program is called. -/
def usage : String := "usage: pylox [-h] [--tokens | --rpn] [-v] [--version] [script]\n"

/-- What the program is for and what its arguments mean. -/
def helpText : String :=
  usage ++ "\n" ++
  "Scan and parse Lox expressions and print the syntax tree.\n\n" ++
  "positional arguments:\n" ++
  "  script         file to run; omit for a prompt\n\n" ++
  "options:\n" ++
  "  -h, --help     show this help message and exit\n" ++
  "  --tokens       print the token stream\n" ++
  "  --rpn          print the tree in reverse Polish notation\n" ++
  "  -v, --verbose  enable debug logging\n" ++
  "  --version      show program's version number and exit\n"

def versionText : String := "pylox 0.1.0\n"

/-! ## A run -/

/-- What a run leaves: how it ended and what it wrote. -/
structure Finished where
  exit : Exit
  stdout : String
  stderr : String

/-- A run that could not even be ended: the name of the script holds the character NUL, which no path
does. -/
inductive Abort where
  | nulInPath
  deriving DecidableEq

def Abort.message : Abort → String
  | nulInPath => "embedded null byte"

/-- The end of a run that the arguments end early. -/
def Early.finish : Early → Finished
  | help => ⟨.ok, helpText, ""⟩
  | version => ⟨.ok, versionText, ""⟩
  | misuse m => ⟨.usage, "", usage ++ "pylox: error: " ++ m.message ++ "\n"⟩

/-- The end of a run that ran something. -/
def finishWith (verbose : Bool) (events : List Event) (exit : Exit) : Finished :=
  ⟨exit, Event.outOf events, Event.errorStreamOf verbose events⟩

/-- Runs the program on options. -/
def runOptions (options : Options) (folder : Folder) (input : String) : Except Abort Finished :=
  let session := Session.fresh options.mode
  match options.script with
  | none => .ok (finishWith options.verbose (session.runPrompt input).events .ok)
  | some path =>
    if '\x00' ∈ path.toList then .error .nulInPath
    else
      let (step, exit) := session.runFile path (folder.read path)
      .ok (finishWith options.verbose step.events exit)

/-- Runs the program. -/
def run (arguments : List String) (folder : Folder) (input : String) : Except Abort Finished :=
  match parseArguments arguments with
  | .error early => .ok early.finish
  | .ok options => runOptions options folder input

end LoxSyntax.CommandLine
