import Lcpl.Format.Decode
import Lcpl.Format.Encode

/-!
# Programs as texts

A program is stored as a JSON text.

## Main definitions

* `Program.load?` — the program that a text stands for
* `Program.compact`, `Program.pretty` — the text of a program, without and with white space
-/

namespace Lcpl.Program

/-- The program that a text stands for. -/
def load? (text : String) : Option Program := (Json.parse? text).bind ofJson?

/-- The text of a program without white space. -/
def compact (p : Program) : String := p.toJson.compact

/-- The text of a program with one item or field a line. -/
def pretty (p : Program) : String := p.toJson.pretty

end Lcpl.Program
