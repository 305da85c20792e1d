import Lcpl.Registry.Basic

/-!
# Ancestors and inherited features

The ancestors of a class are found by following parents. The walk takes at most as many steps as
there are classes: a chain without cycle is no longer than that, and on a cycle every class has been
met by then.

## Main definitions

* `Registry.ancestors` — the strict ancestors, nearest first
* `Registry.isStrictAncestor` — whether a class stands above another
* `Registry.lookupMethod?`, `Registry.overridden?`, `Registry.lookupAttribute?` — the nearest
  feature of a name

## Main results

* `Registry.length_ancestors_le` — there are no more ancestors than classes
-/

namespace Lcpl.Registry

/-- Follows parents from a class on, for at most the given number of steps. -/
def chain (registry : Registry) : Nat → Option ClassId → List ClassId
  | 0, _ => []
  | _ + 1, none => []
  | steps + 1, some id => id :: registry.chain steps (registry.parent? id)

/-- The strict ancestors of a class, nearest first. -/
def ancestors (registry : Registry) (id : ClassId) : List ClassId :=
  registry.chain registry.size (registry.parent? id)

/-- Whether `ancestor` stands strictly above `id`. -/
def isStrictAncestor (registry : Registry) (ancestor id : ClassId) : Bool :=
  ancestor ∈ registry.ancestors id

/-- The method of a name that a class itself declares. -/
def ownMethod? (registry : Registry) (id : ClassId) (name : String) : Option MethodDef :=
  (registry.class? id).bind (·.method? name)

/-- The attribute of a name that a class itself declares. -/
def ownAttribute? (registry : Registry) (id : ClassId) (name : String) : Option AttributeDef :=
  (registry.class? id).bind (·.attribute? name)

/-- The method of a name in the class itself, or else in its nearest ancestor that has one. -/
def lookupMethod? (registry : Registry) (id : ClassId) (name : String) : Option MethodDef :=
  (id :: registry.ancestors id).findSome? (registry.ownMethod? · name)

/-- The method of a name in the nearest strict ancestor that has one. -/
def overridden? (registry : Registry) (id : ClassId) (name : String) : Option MethodDef :=
  (registry.ancestors id).findSome? (registry.ownMethod? · name)

/-- The attribute of a name in the class itself, or else in its nearest ancestor that has one. -/
def lookupAttribute? (registry : Registry) (id : ClassId) (name : String) :
    Option AttributeDef :=
  (id :: registry.ancestors id).findSome? (registry.ownAttribute? · name)

theorem length_chain_le (registry : Registry) (steps : Nat) (from? : Option ClassId) :
    (registry.chain steps from?).length ≤ steps := by
  induction steps generalizing from? with
  | zero => simp [chain]
  | succ steps ih =>
    cases from? with
    | none => simp [chain]
    | some id =>
      have := ih (registry.parent? id)
      simp only [chain, List.length_cons]
      omega

theorem length_ancestors_le (registry : Registry) (id : ClassId) :
    (registry.ancestors id).length ≤ registry.size :=
  registry.length_chain_le registry.size (registry.parent? id)

end Lcpl.Registry
