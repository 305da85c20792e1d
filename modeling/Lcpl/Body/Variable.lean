import Lcpl.Registry.Ancestry
import Lcpl.Body.Scopes

/-!
# Variables

A name in a body or initial value is looked up among the local definitions in force, then among the
parameters of the method, then among the attributes of the class and its ancestors.

## Main definitions

* `Variable` — what a name stands for, with its type
* `Context` — the feature whose body is being checked
* `Context.lookup?` — the variable of a name
-/

namespace Lcpl

/-- What a name stands for, with its type. -/
structure Variable where
  ty : Ty
  ref : VarRef
deriving DecidableEq, Repr

/-- The feature whose body is being checked: the registry, the class, the line of the feature, and
its parameters. -/
structure Context where
  registry : Registry
  currentClass : ClassId
  line : Line
  params : List ParamDef

namespace Context

/-- The parameter of a name. Of several parameters with one name the last counts. -/
def param? (Γ : Context) (name : String) : Option Variable :=
  (Γ.params.reverse.find? (·.name = name)).map fun param => ⟨param.ty, .param param.name⟩

/-- The attribute of a name, in the current class or its nearest ancestor that declares it. -/
def attribute? (Γ : Context) (name : String) : Option Variable :=
  (Γ.registry.lookupAttribute? Γ.currentClass name).bind fun attr =>
    (Γ.registry.name? attr.owner).map fun owner => ⟨attr.ty, .attribute owner attr.name⟩

/-- The variable of a name. -/
def lookup? (Γ : Context) (locals : Scopes String Variable) (name : String) : Option Variable :=
  match locals.find? name with
  | some found => some found
  | none =>
      match Γ.param? name with
      | some found => some found
      | none => Γ.attribute? name

end Context

/-- A local variable, identified by the line of its definition. -/
def Variable.letBound (name : String) (line : Line) (ty : Ty) : Variable :=
  ⟨ty, .letBound name line⟩

end Lcpl
