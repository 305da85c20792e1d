import Lcpl.Analysis.Hierarchy

/-!
# Signatures of features

Before any body is checked, every method and attribute is registered with its resolved types, so
that bodies can refer to features declared later. The declarations in the program are annotated on
the way.

A return type that does not resolve is no error: the method is registered without one, and its
body's value is not checked.

## Main definitions

* `Registry.resolveParams` — the parameters of a method
* `Signature.declareMethod`, `Signature.declareAttribute`, `Signature.declareClass` — one method,
  one attribute, and all features of a class
-/

namespace Lcpl

namespace Registry

/-- A type as it stands in a declaration, or the error that there is no such class. -/
def resolveDeclared (registry : Registry) (typeName : String) (line : Line) : Except Failure Ty :=
  match registry.resolve? typeName with
  | some ty => .ok ty
  | none => .error (.rejected ⟨line, .classNotFound typeName⟩)

/-- Resolves the types of parameters in turn. The parameters in front of the first type that does
not resolve are annotated also when the result is an error. -/
def resolveParams (registry : Registry) :
    List Param → Except Failure (List ParamDef) × List Param
  | [] => (.ok [], [])
  | param :: params =>
      match registry.resolveDeclared param.typeName param.line with
      | .error failure => (.error failure, param :: params)
      | .ok ty =>
          let (defs, rest) := registry.resolveParams params
          (defs.map (⟨param.name, param.typeName, ty⟩ :: ·),
            { param with recordedType := registry.label? ty } :: rest)

/-- The type that a method returns: none at all for `void`, and an unknown one for a name that does
not resolve. -/
def resolveReturn? (registry : Registry) (typeName : String) : Option Ty :=
  if typeName = Vocabulary.void then some .noValue else registry.resolve? typeName

end Registry

namespace Signature

/-- Replaces the declaration beside the registry. -/
def annotate {α : Type} (declaration : α) : Step (Resolving × α) Unit :=
  modify fun (state, _) => (state, declaration)

/-- Reports an event. -/
def emit {α : Type} (event : Event) : Step (Resolving × α) Unit :=
  modify fun (state, declaration) => ({ state with log := state.log.push event }, declaration)

/-- Runs an operation on a registered class, beside the declaration. -/
def onClass {α β : Type} (id : ClassId) (operation : StateM ClassDef β) :
    Step (Resolving × α) (Option β) :=
  Step.within Prod.fst (fun state (_, declaration) => (state, declaration))
    (Resolving.onRegistry (Registry.onClass id operation))

theorem runFrom_onClass {α β : Type} {id : ClassId} {s : Resolving} {c : ClassDef}
    (hc : s.registry.class? id = some c) (operation : StateM ClassDef β) (declaration : α) :
    (onClass id operation).runFrom (s, declaration) =
      (.ok (some (operation.run c).1),
        { s with registry := s.registry.set id (operation.run c).2 }, declaration) := by
  rw [onClass, Step.runFrom_within, Resolving.runFrom_onRegistry,
    Registry.run_onClass_of_some hc]

/-- Registers a method of a class and annotates it. A second method of a name is rejected before it
is touched. -/
def declareMethod (id : ClassId) : Step (Resolving × Method) Unit := do
  let ({ registry, .. }, m) ← get
  let c ← Step.demand (.missingClass id) (registry.class? id)
  if (c.method? m.name).isSome then
    Step.reject (.duplicateMethod c.name m.name) m.line
  let m :=
    { m with recordedOwner := some c.name, recordedSelf := some (.receiver m.line c.name) }
  let (params, annotated) := registry.resolveParams m.params
  let m := { m with params := annotated }
  annotate m
  let params ← Step.ofExcept params
  let returnTy := registry.resolveReturn? m.returnType
  match returnTy with
  | some ty => annotate { m with recordedReturn := registry.label? ty }
  | none => emit (.returnTypeUnresolved m.returnType c.name m.name)
  emit (.methodResolved c.name m.name)
  let method : MethodDef :=
    { name := m.name, line := m.line, owner := id, params, returnTypeName := m.returnType,
      returnTy }
  let added ← onClass id (ClassDef.addMethod method)
  if added ≠ some true then
    Step.fault (.missingFeature id m.name)

/-- Registers an attribute of a class and annotates it. Its type is resolved, and recorded, before
its name is found to be taken. -/
def declareAttribute (id : ClassId) : Step (Resolving × Attribute) Unit := do
  let ({ registry, .. }, a) ← get
  let ty ← Step.ofExcept (registry.resolveDeclared a.typeName a.line)
  annotate { a with recordedType := registry.label? ty }
  let c ← Step.demand (.missingClass id) (registry.class? id)
  let added ← onClass id
    (ClassDef.addAttribute { name := a.name, owner := id, typeName := a.typeName, ty })
  if added ≠ some true then
    Step.reject (.duplicateAttribute c.name a.name) a.line

end Signature

namespace Feature

/-- A step on methods as a step on features, which passes over attributes. -/
def onMethod {σ : Type} (step : Step (σ × Method) Unit) : Step (σ × Feature) Unit := do
  match ← get with
  | (state, .method m) =>
      let (result, state, m) := step.runFrom (state, m)
      set (state, Feature.method m)
      Step.ofExcept result
  | (_, .attribute _) => pure ()

/-- A step on attributes as a step on features, which passes over methods. -/
def onAttribute {σ : Type} (step : Step (σ × Attribute) Unit) : Step (σ × Feature) Unit := do
  match ← get with
  | (state, .attribute a) =>
      let (result, state, a) := step.runFrom (state, a)
      set (state, Feature.attribute a)
      Step.ofExcept result
  | (_, .method _) => pure ()

end Feature

namespace Class

/-- A step on every feature of a class, in declaration order. -/
def eachFeature {σ : Type} (step : Step (σ × Feature) Unit) : Step (σ × Class) Unit :=
  Step.within (fun (state, c) => (state, c.features))
    (fun (state, features) (_, c) => (state, { c with features }))
    (Step.each fun _ => step)

end Class

namespace Signature

/-- Registers and annotates the features of a class, methods before attributes. -/
def declareClass (id : ClassId) : Step (Resolving × Class) Unit := do
  Class.eachFeature (Feature.onMethod (declareMethod id))
  Class.eachFeature (Feature.onAttribute (declareAttribute id))

end Signature

end Lcpl
