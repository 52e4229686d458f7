/-
# LoxSyntax.Session.Basic -- running sources one after the other

A session has a mode, which says what is printed of a source, and holds the diagnostics reported since
its last reset. Running a source reports its faults, then, unless the tokens are to be printed, parses
it and reports the refusal if there is one. A tree is printed only if no diagnostic is held, so one that
is left from an earlier source keeps the trees of later ones back.

A file is run like a source once it is read; a prompt runs each line as a source of its own and resets
the session after it.
-/
import LoxSyntax.Diagnostic.Reporter
import LoxSyntax.Expr.Printer
import LoxSyntax.Parse.Cursor
import LoxSyntax.Scan.Basic
import LoxSyntax.Session.Event
import LoxSyntax.Session.Folder

namespace LoxSyntax

/-- What is printed of a source. -/
inductive Mode where
  /-- Its tree, every application in parentheses. -/
  | tree
  /-- Its tree, operands first. -/
  | reversePolish
  /-- Its tokens. -/
  | tokens
  deriving DecidableEq

namespace Mode

/-- The mode of a given name; a name that belongs to none stands for the first. -/
def ofName (name : String) : Mode :=
  if name = "rpn" then reversePolish else if name = "tokens" then tokens else tree

/-- A tree as a mode prints it. -/
def print : Mode → Expr → String
  | reversePolish, e => e.reversePolish
  | _, e => e.parenthesized

end Mode

/-- How a run of the program ends, as its caller sees it. -/
inductive Exit where
  | ok
  | usage
  | badInput
  | noInput
  deriving DecidableEq

def Exit.code : Exit → Nat
  | ok => 0
  | usage => 64
  | badInput => 65
  | noInput => 66

/-- A mode and the diagnostics held. -/
structure Session where
  mode : Mode
  held : List Diagnostic

namespace Session

/-- A session that holds no diagnostics. -/
def fresh (mode : Mode) : Session := ⟨mode, []⟩

/-- Holds more diagnostics. -/
def hold (s : Session) (ds : List Diagnostic) : Session := { s with held := s.held ++ ds }

/-- Forgets the diagnostics held. -/
def reset (s : Session) : Session := { s with held := [] }

/-- A session after something was done, and what that gave out. -/
structure Step where
  session : Session
  events : List Event

/-! ## What is given out -/

/-- The events of reporting a diagnostic. -/
def reportEvents (d : Diagnostic) : List Event :=
  [.log ⟨.debug, "lox.lexer.errors", d.kind.name ++ " error reported: " ++ d.text⟩,
    .err (d.text ++ "\n")]

/-- The events of a fault of a source. -/
def faultEvents (fault : Fault) : List Event :=
  (match fault with
    | .unexpectedCharacter c line =>
      [.log ⟨.debug, "lox.lexer.errors", "unexpected character " ++ Text.quoted (String.singleton c) ++
        " on line " ++ toString line⟩]
    | _ => []) ++ reportEvents fault.diagnostic

/-- The events of scanning a source. -/
def scanEvents (source : String) : List Event :=
  (Scan.faults source).flatMap faultEvents ++
    [.log ⟨.debug, "lox.lexer.scanner", "scanned " ++ toString (Scan.sequence source).length ++
      " tokens over " ++ toString (Scan.lastLine source) ++ " lines"⟩]

/-- The events of a refusal. -/
def rejectionEvents (r : Rejection) : List Event :=
  reportEvents r.diagnostic ++ [.log ⟨.debug, "lox.parser.parser", "parse abandoned: " ++ r.text⟩]

/-- The record of a parse that went well, with the cursor behind the expression. -/
def parsedEvent (e : Expr) (after : Cursor) : Event :=
  .log ⟨.debug, "lox.parser.parser", "parsed " ++ e.form.name ++ " using " ++
    toString after.position ++ " of " ++ toString after.tokens.length ++ " tokens"⟩

/-! ## Running -/

/-- The parse of a source from its first token on, within the bound on nesting. -/
def parse (source : String) : Except Rejection Expr × Cursor :=
  (Cursor.start (Scan.sequence source)).parse Parse.defaultLimit

/-- Runs a source. -/
def run (s : Session) (source : String) : Step :=
  let scanned := s.hold (Scan.diagnostics source)
  match s.mode with
  | .tokens =>
    ⟨scanned, scanEvents source ++ (Scan.tokens source).map fun t => .out (t.display ++ "\n")⟩
  | mode =>
    match parse source with
    | (.error rejection, _) =>
      ⟨scanned.hold [rejection.diagnostic], scanEvents source ++ rejectionEvents rejection⟩
    | (.ok e, after) =>
      ⟨scanned, scanEvents source ++ parsedEvent e after ::
        if scanned.held = [] then [.out (mode.print e ++ "\n")] else []⟩

/-- Runs a file, given what reading it gave. -/
def runFile (s : Session) (path : String) (contents : Except ReadFault (List UInt8)) : Step × Exit :=
  match contents with
  | .error fault =>
    (⟨s, [.log ⟨.error, "lox.cli", "cannot read " ++ path ++ ": " ++ fault.text path⟩]⟩, .noInput)
  | .ok bytes =>
    match sourceOfBytes bytes with
    | .error fault =>
      (⟨s, [.log ⟨.error, "lox.cli", path ++ " is not valid UTF-8: " ++ fault.text⟩]⟩, .badInput)
    | .ok source =>
      let step := s.run source
      if step.session.held = [] then (step, .ok)
      else
        (⟨step.session, step.events ++ [.log ⟨.info, "lox.cli",
          path ++ ": " ++ toString step.session.held.length ++ " error(s)"⟩]⟩, .badInput)

/-- What a prompt shows before each line. -/
def promptText : String := "> "

/-- What a prompt shows when its input ends. -/
def farewell : String := "Have a great day!\n"

/-- Runs lines typed at a prompt, each by itself, until there are no more. -/
def runLines (s : Session) : List (List Char) → Step
  | [] => ⟨s, [.out promptText, .out farewell]⟩
  | line :: rest =>
    let step := s.run (String.ofList line)
    let after := step.session.reset.runLines rest
    ⟨after.session, .out promptText :: step.events ++ after.events⟩

/-- Runs a prompt on all that is typed at it. -/
def runPrompt (s : Session) (input : String) : Step := s.runLines (Text.lines input.toList)

end Session

end LoxSyntax
