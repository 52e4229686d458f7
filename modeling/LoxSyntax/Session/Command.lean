/-
# LoxSyntax.Session.Command -- what a session can be told to do

A command is a source, a file, a prompt or a reset. Sessions are compared by what they do on the same
list of commands.
-/
import LoxSyntax.Session.Basic

namespace LoxSyntax

/-- Something that a session can be told to do. -/
inductive Command where
  | run (source : String)
  /-- Runs a file: its path, and what reading it gave. -/
  | file (path : String) (contents : Except ReadFault (List UInt8))
  /-- Runs a prompt on all that is typed at it. -/
  | prompt (input : String)
  | reset

namespace Session

/-- A session after a command, what the command gave out, and how it ended if it ends in a way of its
own. -/
structure Result where
  session : Session
  events : List Event
  exit : Option Exit

/-- Does what it is told. -/
def perform (s : Session) : Command → Result
  | .run source => let step := s.run source; ⟨step.session, step.events, none⟩
  | .file path contents =>
    let (step, exit) := s.runFile path contents
    ⟨step.session, step.events, some exit⟩
  | .prompt input => let step := s.runPrompt input; ⟨step.session, step.events, some .ok⟩
  | .reset => ⟨s.reset, [], none⟩

/-- The results of commands that are done one after the other. -/
def performAll (s : Session) : List Command → List Result
  | [] => []
  | command :: rest =>
    let result := s.perform command
    result :: result.session.performAll rest

theorem length_performAll (s : Session) (commands : List Command) :
    (s.performAll commands).length = commands.length := by
  induction commands generalizing s with
  | nil => rfl
  | cons command rest ih => simp [performAll, ih]

end Session

end LoxSyntax
