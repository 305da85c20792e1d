import Lcpl.Registry.Ancestry

/-!
# Conversions between types

## Main definitions

* `Conversion`, `Registry.conversion?` — how a value is used where a type is expected
* `Registry.join` — the type of a choice between two branches
-/

namespace Lcpl

/-- How a value of one type is used as another. -/
inductive Conversion where
  /-- As it is. -/
  | keep
  /-- Wrapped in a cast. -/
  | cast (target : Ty)
deriving DecidableEq, Repr

namespace Registry

/-- How a value of type `source` is used where `target` is expected, if it can be. The `void`
literal fits everywhere, a number is turned into a text, and an object is widened to an
ancestor. -/
def conversion? (registry : Registry) (source target : Ty) : Option Conversion :=
  if source = target then some .keep
  else
    match source, target with
    | .null, _ => some .keep
    | .int, .object id => if id = .string then some (.cast target) else none
    | .object id, .object ancestor =>
        if registry.isStrictAncestor ancestor id then some (.cast target) else none
    | _, _ => none

/-- The type of a choice between branches of two types. -/
def join (registry : Registry) (a b : Ty) : Ty :=
  if a = b then a
  else
    match a, b with
    | .null, other => other
    | other, .null => other
    | .object x, .object y =>
        if registry.isStrictAncestor x y then a
        else if registry.isStrictAncestor y x then b
        else .noValue
    | _, _ => .noValue

/-- Whether `ancestor` is a class strictly above the class `ty`. -/
def isStrictlyAbove (registry : Registry) (ancestor ty : Ty) : Bool :=
  match ancestor, ty with
  | .object ancestor, .object id => registry.isStrictAncestor ancestor id
  | _, _ => false

end Registry

end Lcpl
