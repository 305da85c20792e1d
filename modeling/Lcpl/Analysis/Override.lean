import Lcpl.Registry.Ancestry
import Lcpl.Analysis.Step

/-!
# Overriding

A method that is declared again in a descendant keeps the signature of its nearest ancestor. An
attribute is never declared again.

## Main definitions

* `Registry.checkOverride` — a method against the one it overrides
* `Registry.checkRedefinition` — an attribute against those of the ancestors
-/

namespace Lcpl.Registry

/-- The name of the first parameter whose declared type differs from the inherited one. Parameters
are compared side by side, so there have to be as many on either side. -/
def changedParam? : List ParamDef → List ParamDef → Except Fault (Option String)
  | [], [] => .ok none
  | own :: owns, inherited :: inheriteds =>
      if own.typeName = inherited.typeName then changedParam? owns inheriteds
      else .ok (some own.name)
  | _, _ => .error .unevenParameters

/-- Compares a method with the one that it overrides: by the number of parameters, then the name of
the return type, then the names of the parameter types. -/
def checkSignature (own inherited : MethodDef) : Except Failure Unit :=
  if own.params.length ≠ inherited.params.length then
    .error (.rejected ⟨own.line, .overrideArityMismatch⟩)
  else if own.returnTypeName ≠ inherited.returnTypeName then
    .error (.rejected ⟨own.line, .overrideReturnTypeMismatch⟩)
  else
    match changedParam? own.params inherited.params with
    | .error fault => .error (.fault fault)
    | .ok (some param) => .error (.rejected ⟨own.line, .overrideParamTypeMismatch param⟩)
    | .ok none => .ok ()

/-- Checks a method of a class against the one that it overrides, if there is one. -/
def checkOverride (registry : Registry) (id : ClassId) (name : String) : Except Failure Unit :=
  match registry.ownMethod? id name with
  | none => .error (.fault (.missingFeature id name))
  | some own =>
      match registry.overridden? id name with
      | none => .ok ()
      | some inherited => checkSignature own inherited

/-- Rejects an attribute that a strict ancestor declares too. The error is reported at the class. -/
def checkRedefinition (registry : Registry) (id : ClassId) (name : String) :
    Except Failure Unit :=
  if (registry.ancestors id).any fun ancestor => (registry.ownAttribute? ancestor name).isSome then
    match registry.class? id with
    | none => .error (.fault (.missingClass id))
    | some c => .error (.rejected ⟨c.line, .attributeRedefined name⟩)
  else .ok ()

end Lcpl.Registry
