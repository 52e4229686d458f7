/-
# LoxSyntax.Main -- the program at a terminal

The arguments are read by `CommandLine.parseArguments`; a script is read from the disk and run by
`Session.runFile`, a prompt is run line by line by `Session.run`. What is left to do here is to take
bytes and lines in and to write events out.
-/
import LoxSyntax.CommandLine.Program

open LoxSyntax LoxSyntax.CommandLine

namespace LoxSyntax.Main

/-- Writes what an event shows to the stream it belongs to. -/
def emit (verbose : Bool) (event : Event) : IO Unit := do
  (← IO.getStdout).putStr event.outText
  (← IO.getStderr).putStr (event.errorStreamText verbose)

/-- The number of a system error, which the system may give with either sign. -/
def unsigned (number : UInt32) : Nat := min number.toNat (0 - number).toNat

/-- Reads a file from the disk. -/
def readDisk (path : String) : IO (Except ReadFault (List UInt8)) := do
  try
    return .ok (← IO.FS.readBinFile path).toList
  catch
    | .noFileOrDirectory .. => return .error .missing
    | .inappropriateType _ number _ =>
      return .error (if unsigned number = ReadFault.number .notFolder then .notFolder else .isFolder)
    | fault => throw fault

/-- Runs lines from the terminal until there are no more. -/
partial def prompt (verbose : Bool) (session : Session) : IO Unit := do
  emit verbose (.out Session.promptText)
  (← IO.getStdout).flush
  let line ← (← IO.getStdin).getLine
  if line.isEmpty then emit verbose (.out Session.farewell)
  else
    let step := session.run (String.ofList (line.toList.filter (· ≠ '\n')))
    step.events.forM (emit verbose)
    prompt verbose step.session.reset

/-- Writes the end of a run that ran nothing. -/
def close (finished : Finished) : IO UInt32 := do
  (← IO.getStdout).putStr finished.stdout
  (← IO.getStderr).putStr finished.stderr
  return finished.exit.code.toUInt32

/-- Runs the program on its arguments; the answer is its exit code. -/
def run (arguments : List String) : IO UInt32 := do
  match parseArguments arguments with
  | .error early => close early.finish
  | .ok options =>
    let session := Session.fresh options.mode
    match options.script with
    | none =>
      prompt options.verbose session
      return Exit.ok.code.toUInt32
    | some path =>
      let (step, exit) := session.runFile path (← readDisk path)
      step.events.forM (emit options.verbose)
      return exit.code.toUInt32

end LoxSyntax.Main

def main (arguments : List String) : IO UInt32 := LoxSyntax.Main.run arguments
