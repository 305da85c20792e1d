import Lcpl.Registry.Ancestry
import Lcpl.Analysis.Step

/-!
# The class hierarchy

The classes of a program are registered, linked to their parents, checked for cycles, and searched
for the entry point.

## Main definitions

* `Resolving` — the registry under construction, with the log
* `Hierarchy.register`, `Hierarchy.linkParents` — building the hierarchy
* `Registry.leadsTo` — the walk up from a class that remembers the classes it has seen
* `Registry.checkCycles`, `Registry.checkEntry` — checks on a registry
-/

namespace Lcpl

/-- The registry under construction, with the log. -/
structure Resolving where
  registry : Registry
  log : Array Event

namespace Resolving

/-- Reports an event. -/
def emit (event : Event) : Step Resolving Unit :=
  modify fun state => { state with log := state.log.push event }

/-- Runs an operation on the registry. -/
def onRegistry {α : Type} (operation : StateM Registry α) : Step Resolving α := do
  let state ← get
  let (value, registry) := operation.run state.registry
  set { state with registry }
  return value

theorem runFrom_onRegistry {α : Type} (operation : StateM Registry α) (s : Resolving) :
    (onRegistry operation).runFrom s =
      (.ok (operation.run s.registry).1,
        { s with registry := (operation.run s.registry).2 }) := rfl

end Resolving

namespace Hierarchy

/-- Registers classes, the first of which stands at the given position of the program. -/
def registerFrom : Nat → List Class → Step Resolving Unit
  | _, [] => pure ()
  | position, c :: classes => do
      let added ← Resolving.onRegistry
        (Registry.addClass (.declared c.name c.line (.declared position) c.parent))
      if added.isNone then
        Step.reject (.duplicateClass c.name) c.line
      registerFrom (position + 1) classes

/-- Registers the classes of a program. A name may be taken only once, also by a built-in class. -/
def register (classes : List Class) : Step Resolving Unit := do
  registerFrom 0 classes
  Resolving.emit (.classesRegistered classes.length)

/-- The parent of a class by its declaration: without one, `Object`. Nothing inherits from
`String`. -/
def declaredParent (registry : Registry) (c : ClassDef) : Except Failure ClassId := do
  let parent ←
    match c.declaredParent with
    | none => pure .object
    | some name =>
        match registry.find? name with
        | none => .error (.rejected ⟨c.line, .classNotFound name⟩)
        | some parent => pure parent
  if parent = .string then .error (.rejected ⟨c.line, .cannotInheritString⟩) else pure parent

/-- Links a class to its parent. -/
def linkParent (id : ClassId) : Step Resolving Unit := do
  let state ← get
  let c ← Step.demand (.missingClass id) (state.registry.class? id)
  let parent ← Step.ofExcept (declaredParent state.registry c)
  let linked ← Resolving.onRegistry (Registry.onClass id (ClassDef.setParent (some parent)))
  Step.demand (.missingClass id) linked

/-- Links the classes of the program to their parents, in order. -/
def linkParents : Step Resolving Unit := do
  let state ← get
  state.registry.declared.forM fun (id, _) => linkParent id

/-! ### Running the steps -/

variable {s : Resolving}

/-- A class whose name is new is registered in front of the others. -/
theorem runFrom_registerFrom_of_some {position : Nat} {c : Class} {classes : List Class}
    {after : Registry}
    (h : s.registry.add? (.declared c.name c.line (.declared position) c.parent) = some after) :
    (registerFrom position (c :: classes)).runFrom s =
      (registerFrom (position + 1) classes).runFrom { s with registry := after } := by
  obtain ⟨hnew, rfl⟩ := Registry.add?_eq_some_iff.mp h
  rw [registerFrom, Step.runFrom_bind, Resolving.runFrom_onRegistry,
    Registry.run_addClass_of_none hnew]
  rfl

/-- A class whose name is taken is rejected, and registers nothing. -/
theorem runFrom_registerFrom_of_none {position : Nat} {c : Class} {classes : List Class}
    (h : s.registry.add? (.declared c.name c.line (.declared position) c.parent) = none) :
    (registerFrom position (c :: classes)).runFrom s =
      (.error (.rejected ⟨c.line, .duplicateClass c.name⟩), s) := by
  rw [registerFrom, Step.runFrom_bind, Resolving.runFrom_onRegistry,
    Registry.run_addClass_of_isSome (Registry.add?_eq_none_iff.mp h)]
  rfl

theorem runFrom_linkParent_of_none {id : ClassId} (h : s.registry.class? id = none) :
    (linkParent id).runFrom s = (.error (.fault (.missingClass id)), s) := by
  simp [linkParent, Step.runFrom_bind, h]

theorem runFrom_linkParent_of_error {id : ClassId} {c : ClassDef} {failure : Failure}
    (hc : s.registry.class? id = some c) (h : declaredParent s.registry c = .error failure) :
    (linkParent id).runFrom s = (.error failure, s) := by
  simp [linkParent, Step.runFrom_bind, hc, h]

theorem runFrom_linkParent_of_ok {id parent : ClassId} {c : ClassDef}
    (hc : s.registry.class? id = some c) (h : declaredParent s.registry c = .ok parent) :
    (linkParent id).runFrom s =
      (.ok (), { s with registry := s.registry.set id { c with parent := some parent } }) := by
  have hlinked := Registry.run_onClass_of_some hc (ClassDef.setParent (some parent))
  simp only [linkParent, Step.runFrom_bind, Step.runFrom_get, hc, Step.runFrom_demand_some, h,
    Step.runFrom_ofExcept, Resolving.runFrom_onRegistry, hlinked]
  rfl

end Hierarchy

namespace Registry

/-- The classes that have not been seen. -/
def unseen (registry : Registry) (seen : List ClassId) : List ClassId :=
  registry.ids.filter (· ∉ seen)

theorem length_unseen_cons_lt {registry : Registry} {seen : List ClassId} {id : ClassId}
    {c : ClassDef} (hc : registry.class? id = some c) (hnew : id ∉ seen) :
    (registry.unseen (id :: seen)).length < (registry.unseen seen).length := by
  have hlt : id.index < registry.size :=
    Nat.lt_of_not_le fun hle => by simp [class?_eq_none_iff.mpr hle] at hc
  have hcons : registry.unseen (id :: seen) = (registry.unseen seen).filter (· ≠ id) := by
    simp [unseen, List.filter_filter]
  rw [hcons, List.length_filter_lt_length_iff_exists]
  exact ⟨id, by simp [unseen, hlt, hnew], by simp⟩

/-- Whether the walk from one parent to the next comes to a class. It remembers the classes it has
seen, and ends where it sees one again: there is a cycle further up that does not include the
class. -/
def leadsTo (registry : Registry) (id : ClassId) (seen : List ClassId) : Option ClassId → Bool
  | none => false
  | some ancestor =>
      if ancestor = id then true
      else if _hseen : ancestor ∈ seen then false
      else
        match _hc : registry.class? ancestor with
        | none => false
        | some c => registry.leadsTo id (ancestor :: seen) c.parent
termination_by (registry.unseen seen).length
decreasing_by exact length_unseen_cons_lt _hc _hseen

/-- Rejects a class whose chain of parents leads back to it. -/
def checkCycle (registry : Registry) (id : ClassId) : Except Failure Unit :=
  match registry.class? id with
  | none => .error (.fault (.missingClass id))
  | some c =>
      if registry.leadsTo id [] c.parent then
        .error (.rejected ⟨c.line, .inheritanceCycle c.name⟩)
      else .ok ()

/-- Rejects the first class, by number, whose chain of parents leads back to it. -/
def checkCycles (registry : Registry) : Except Failure Unit :=
  registry.ids.forM registry.checkCycle

/-- A program needs a class `Main` that has or inherits a method `main` without parameters. What is
missing is reported at the line of the program. -/
def checkEntry (registry : Registry) (line : Line) : Except Failure Unit :=
  match registry.find? Vocabulary.mainClass with
  | none => .error (.rejected ⟨line, .classNotFound Vocabulary.mainClass⟩)
  | some id =>
      match registry.lookupMethod? id Vocabulary.mainMethod with
      | some { params := [], .. } => .ok ()
      | _ => .error (.rejected ⟨line, .methodNotFound Vocabulary.mainMethod Vocabulary.mainClass⟩)

end Registry

end Lcpl
