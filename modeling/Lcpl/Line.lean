/-!
# Source lines

Every declaration and expression of a program stands on a source line, and every error is
reported at one.

## Main definitions

* `Line` — a line number
* `Located` — a datum together with the line it is reported at
-/

namespace Lcpl

/-- A line number. A node made during analysis takes the line of the node that caused it. -/
abbrev Line := UInt32

/-- A datum reported at a line. -/
structure Located (α : Type) where
  line : Line
  data : α
deriving DecidableEq, Repr

namespace Located

variable {α : Type}

/-- The datum's text followed by its line. -/
def describe (text : α → String) (located : Located α) : String :=
  text located.data ++ " at line " ++ toString located.line

end Located

end Lcpl
