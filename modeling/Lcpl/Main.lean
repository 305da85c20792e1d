import Lcpl.Terminal.CommandLine

/-!
# The executable

Reads and writes the files of a run of the command line, and shows its diagnostics.
-/

namespace Lcpl.CommandLine

/-- How the tool is called. -/
def usage : String := "usage: lcpl-semant [--color auto|always|never] INPUT OUTPUT"

/-- Reads the text of an open file. -/
def readText (handle : IO.FS.Handle) : IO Input := do
  try
    return .text (← handle.readToEnd)
  catch error =>
    return .unreadable (toString error)

/-- Opens a file and reads its text. -/
def readInput (path : String) : IO Input := do
  try
    readText (← IO.FS.Handle.mk path .read)
  catch error =>
    return .closed (toString error)

/-- Creates a file with a text. -/
def writeOutput (path text : String) : IO (Except String Unit) := do
  try
    IO.FS.writeFile path text
    return .ok ()
  catch error =>
    return .error (toString error)

/-- The terminal on which diagnostics are shown. Without a choice, colour is for terminals that
understand it. -/
def terminal (choice : ColourChoice) : IO Terminal := do
  match choice with
  | .always => return .coloured
  | .never => return .plain
  | .auto =>
      let stream ← IO.getStderr
      let understood := (← IO.getEnv "TERM") ≠ some "dumb"
      return if understood && (← stream.isTty) then .coloured else .plain

/-- Runs the tool and returns its exit code. -/
def execute (options : Options) : IO UInt32 := do
  let input ← readInput options.input
  let prepared := prepare options input "it is not the JSON form of a program"
  let creation ←
    match prepared.output with
    | some text => writeOutput options.output text
    | none => pure (.ok ())
  let report := finish options prepared creation
  IO.eprint (report.text (← terminal options.colour))
  return report.exitCode

end Lcpl.CommandLine

def main (args : List String) : IO UInt32 := do
  match Lcpl.CommandLine.parse? args with
  | some options => Lcpl.CommandLine.execute options
  | none =>
      IO.eprintln Lcpl.CommandLine.usage
      return 1
