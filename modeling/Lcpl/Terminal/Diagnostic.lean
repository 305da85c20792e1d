import Lcpl.Analysis.Error
import Lcpl.Terminal.Style

/-!
# Diagnostics

Errors are shown to the user as diagnostics: the word `Error`, the line if there is one, the
message, and a line for each cause.

## Main definitions

* `Diagnostic` — an error as it is shown
* `Diagnostic.text` — its text on a terminal
-/

namespace Lcpl

/-- An error as it is shown to the user. -/
structure Diagnostic where
  line : Option Line
  message : String
  causes : List String
deriving DecidableEq, Repr

namespace Diagnostic

/-- The diagnostic of an error at a line of the program. -/
def ofError (error : Located SemanticError) : Diagnostic :=
  { line := some error.line, message := error.data.message, causes := [] }

/-- A diagnostic that is not tied to a line. -/
def plain (message : String) (causes : List String) : Diagnostic :=
  { line := none, message, causes }

/-- Where the error is. -/
def place (diagnostic : Diagnostic) : String :=
  match diagnostic.line with
  | some line => " in line " ++ toString line
  | none => ""

/-- The lines of the causes. -/
def causeLines (causes : List String) : String :=
  String.join (causes.map fun cause => "  caused by: " ++ cause ++ "\n")

/-- The text of a diagnostic. -/
def text (terminal : Terminal) (diagnostic : Diagnostic) : String :=
  terminal.reset ++ terminal.styled "Error" .red true ++ diagnostic.place ++ " : " ++
    diagnostic.message ++ "\n" ++ causeLines diagnostic.causes ++ terminal.reset

end Diagnostic

end Lcpl
