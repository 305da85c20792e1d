import Lcpl.Analysis.Run
import Lcpl.Terminal.Diagnostic
import Lcpl.Format.Text
import Lcpl.Tree.Forest

/-!
# The command line

The tool reads a program from one file, analyses it, and writes the annotated program to another
file, also when analysis has found an error. Diagnostics are coloured on demand.

What the tool does is a function of its arguments, of what opening the input file gave, and of
whether the output file can be created; reading and writing files is left to the caller.

## Main definitions

* `CommandLine.Options`, `CommandLine.parse?` — the arguments
* `CommandLine.Input`, `CommandLine.load` — the input file, and the program in it
* `CommandLine.prepare` — all that happens before the output file is created
* `CommandLine.Report`, `CommandLine.finish`, `CommandLine.run` — the outcome of a run
-/

namespace Lcpl.CommandLine

/-- When diagnostics are coloured. -/
inductive ColourChoice where
  | auto
  | always
  | never
deriving DecidableEq, Repr

/-- The choice of a name. -/
def ColourChoice.ofText? : String → Option ColourChoice
  | "auto" => some .auto
  | "always" => some .always
  | "never" => some .never
  | _ => none

/-- The arguments: the choice of colour, the input file and the output file. -/
structure Options where
  colour : ColourChoice
  input : String
  output : String
deriving DecidableEq, Repr

/-- What an argument is, by its form. -/
inductive Argument where
  /-- A file, or the value of an option. -/
  | plain
  /-- The option `--color`, with its value if it stands behind an equals sign. -/
  | colour (value : Option String)
  /-- The lone `--`, behind which all arguments are files. -/
  | separator
  | unknown
deriving DecidableEq, Repr

/-- What stands behind the first equals sign, without further ones in front of it. -/
def valuePart? (option : List Char) : Option String :=
  match option.dropWhile (· ≠ '=') with
  | [] => none
  | value => some (String.ofList (value.dropWhile (· = '=')))

/-- The form of an argument. An option begins with two or more hyphens. A lone hyphen is a file. -/
def Argument.ofText (text : String) : Argument :=
  match text.toList with
  | ['-', '-'] => .separator
  | '-' :: '-' :: option =>
      let option := option.dropWhile (· = '-')
      if option.takeWhile (· ≠ '=') = ['c', 'o', 'l', 'o', 'r'] then .colour (valuePart? option)
      else .unknown
  | '-' :: _ :: _ => .unknown
  | _ => .plain

/-- The arguments sorted into colour choices and files, in order. An option without an equals sign
takes the next argument for its value, if that is not an option itself. -/
def sort? : List String → Option (List (Option String) × List String)
  | [] => some ([], [])
  | arg :: rest =>
      match Argument.ofText arg, rest with
      | .separator, files => some ([], files)
      | .unknown, _ => none
      | .plain, rest => do
          let (colours, files) ← sort? rest
          return (colours, arg :: files)
      | .colour (some value), rest => do
          let (colours, files) ← sort? rest
          return (some value :: colours, files)
      | .colour none, [] => some ([none], [])
      | .colour none, next :: rest =>
          if Argument.ofText next = .plain then do
            let (colours, files) ← sort? rest
            return (some next :: colours, files)
          else do
            let (colours, files) ← sort? (next :: rest)
            return (none :: colours, files)

/-- Reads the arguments; none, if they are not as they should be. The option may occur once, and
without a value it changes nothing. -/
def parse? (args : List String) : Option Options :=
  match sort? args with
  | some ([], [input, output]) => some { colour := .auto, input, output }
  | some ([none], [input, output]) => some { colour := .auto, input, output }
  | some ([some colour], [input, output]) =>
      (ColourChoice.ofText? colour).map fun colour => { colour, input, output }
  | _ => none

/-- What opening the input file gave: its text, the reason why it cannot be opened, or an open file
that holds no text. -/
inductive Input where
  | text (content : String)
  | unreadable (reason : String)
  | closed (reason : String)
deriving DecidableEq, Repr

/-- Why there is nothing to analyse. -/
inductive LoadError where
  | cannotOpen (path reason : String)
  | notAProgram (path reason : String)
  | badReference (error : ReferenceError)
deriving DecidableEq, Repr

namespace LoadError

/-- How a loading error is shown. -/
def diagnostic : LoadError → Diagnostic
  | cannotOpen path reason => .plain ("cannot open " ++ path) [reason]
  | notAProgram path reason => .plain (path ++ " does not contain a program") [reason]
  | badReference error => .plain error.message []

end LoadError

/-- The program in a file, with its references checked. The complaint is what is said of a text that
is no program. -/
def load (path : String) (input : Input) (complaint : String) : Except LoadError Program := do
  let text ←
    match input with
    | .closed reason => .error (.cannotOpen path reason)
    | .unreadable reason => .error (.notAProgram path reason)
    | .text content => pure content
  match Program.load? text with
  | none => .error (.notAProgram path complaint)
  | some program =>
      match program.checkForest with
      | .error error => .error (.badReference error)
      | .ok () => pure program

/-- What is known before the output file is created: what to show, and the text to store, if there
is one. -/
structure Prepared where
  diagnostics : List Diagnostic
  output : Option String
deriving DecidableEq, Repr

/-- How the failure of an analysis is shown. -/
def failureDiagnostic : Failure → Diagnostic
  | .rejected error => .ofError error
  | .fault _ => .plain "the expressions of the program do not form trees" []

/-- Analyses a loaded program. It is stored with a final newline, whether or not it was rejected. -/
def analysed (program : Program) : Prepared :=
  let outcome := program.analyse
  { diagnostics :=
      match outcome.result with
      | .ok _ => []
      | .error failure => [failureDiagnostic failure]
    output := some (outcome.program.pretty ++ "\n") }

/-- All that happens before the output file is created. -/
def prepare (options : Options) (input : Input) (complaint : String) : Prepared :=
  match load options.input input complaint with
  | .error error => { diagnostics := [error.diagnostic], output := none }
  | .ok program => analysed program

/-- What a run shows, its exit code, and the text it stored. -/
structure Report where
  diagnostics : List Diagnostic
  exitCode : UInt32
  stored : Option String
deriving DecidableEq, Repr

/-- The end of a run. It fails if there is nothing to store, or if the output file cannot be
created for the given reason. -/
def finish (options : Options) (prepared : Prepared) (creation : Except String Unit) : Report :=
  match prepared.output, creation with
  | none, _ => { diagnostics := prepared.diagnostics, exitCode := 2, stored := none }
  | some _, .error reason =>
      { diagnostics :=
          prepared.diagnostics ++ [.plain ("cannot create " ++ options.output) [reason]]
        exitCode := 2
        stored := none }
  | some text, .ok () =>
      { diagnostics := prepared.diagnostics
        exitCode := if prepared.diagnostics.isEmpty then 0 else 1
        stored := some text }

/-- A whole run. -/
def run (options : Options) (input : Input) (complaint : String)
    (creation : Except String Unit) : Report :=
  finish options (prepare options input complaint) creation

/-- What a report shows on a terminal. -/
def Report.text (terminal : Terminal) (report : Report) : String :=
  String.join (report.diagnostics.map (Diagnostic.text terminal))

end Lcpl.CommandLine
