/-
# LoxSyntax.Session.Event -- what a session gives out

A session writes results to one stream and diagnostics to another, and it keeps a log. The three are
events of one list, in the order in which they happen: the log shares a stream with the diagnostics, so
their order among each other can be seen.
-/
namespace LoxSyntax

/-- How much a record of the log matters. -/
inductive Severity where
  | debug
  | info
  | error
  deriving DecidableEq

def Severity.name : Severity → String
  | debug => "DEBUG"
  | info => "INFO"
  | error => "ERROR"

/-- A record of the log: how much it matters, the part of the program that wrote it, and its text. -/
structure Record where
  severity : Severity
  origin : String
  message : String
  deriving DecidableEq

/-- A record as a line. -/
def Record.line (r : Record) : String := r.severity.name ++ " " ++ r.origin ++ ": " ++ r.message ++ "\n"

/-- Something that a session gives out. -/
inductive Event where
  | out (text : String)
  | err (text : String)
  | log (record : Record)
  deriving DecidableEq

namespace Event

/-- What an event writes to the stream of results. -/
def outText : Event → String
  | out text => text
  | err _ | log _ => ""

/-- What an event writes to the stream of diagnostics, records of the log apart. -/
def errText : Event → String
  | err text => text
  | out _ | log _ => ""

/-- What an event writes to the stream of diagnostics when the log is written to it as well, all of it or
only what matters most. -/
def errorStreamText (verbose : Bool) : Event → String
  | out _ => ""
  | err text => text
  | log record => if verbose ∨ record.severity = .error then record.line else ""

/-- The results that a list of events writes. -/
def outOf (events : List Event) : String := String.join (events.map outText)

/-- The diagnostics that a list of events writes. -/
def errOf (events : List Event) : String := String.join (events.map errText)

/-- The diagnostics and the log that a list of events writes. -/
def errorStreamOf (verbose : Bool) (events : List Event) : String :=
  String.join (events.map (errorStreamText verbose))

end Event

end LoxSyntax
