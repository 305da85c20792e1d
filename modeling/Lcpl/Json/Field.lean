import Lcpl.Json.Value

/-!
# Fields of objects

An object is read field by field. A field that is asked for may occur only once; members that
nobody asks for are ignored, however often they occur. The order of members has no meaning.

## Main definitions

* `Json.values` — the values written under a key
* `Json.required`, `Json.optional`, `Json.withDefault` — a field that must be there, that may be
  missing or null, and that may be missing
* `Json.natural?`, `Json.listOf?` and others — readers of single values
* `Json.present` — a member that is only written while it has a value
-/

namespace Lcpl.Json

variable {α : Type}

/-- The members of an object, as written. -/
abbrev Members := List (String × Json)

/-- The values written under a key, in order. -/
def values (key : String) (members : Members) : List Json :=
  members.filterMap fun (name, value) => if name = key then some value else none

/-- A field that occurs exactly once. -/
def required (read : Json → Option α) (key : String) (members : Members) : Option α :=
  match values key members with
  | [value] => read value
  | _ => none

/-- A field that occurs at most once. Missing and null stand for no value. -/
def optional (read : Json → Option α) (key : String) (members : Members) : Option (Option α) :=
  match values key members with
  | [] => some none
  | [.null] => some none
  | [value] => (read value).map some
  | _ => none

/-- A field that occurs at most once, and stands for a given value when it is missing. -/
def withDefault (default : α) (read : Json → Option α) (key : String) (members : Members) :
    Option α :=
  match values key members with
  | [] => some default
  | [value] => read value
  | _ => none

/-! ### Single values -/

/-- The members of an object. -/
def members? : Json → Option Members
  | .object members => some members
  | _ => none

/-- A text. -/
def string? : Json → Option String
  | .string value => some value
  | _ => none

/-- A truth value. -/
def bool? : Json → Option Bool
  | .bool value => some value
  | _ => none

/-- An integer. -/
def integer? : Json → Option Int
  | .integer value => some value
  | _ => none

/-- An integer that is not negative and below a bound. -/
def natural? (bound : Nat) : Json → Option Nat
  | .integer (.ofNat value) => if value < bound then some value else none
  | _ => none

/-- An array of values that can all be read. -/
def listOf? (read : Json → Option α) : Json → Option (List α)
  | .array items => items.mapM read
  | _ => none

/-! ### Writing -/

/-- A value, or null. -/
def orNull (write : α → Json) : Option α → Json
  | some value => write value
  | none => .null

/-- A member that is only written while it has a value. -/
def present (key : String) (write : α → Json) : Option α → Members
  | some value => [(key, write value)]
  | none => []

end Lcpl.Json
