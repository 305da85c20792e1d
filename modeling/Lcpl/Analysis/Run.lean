import Lcpl.Body.Check
import Lcpl.Analysis.Override
import Lcpl.Registry.Builtin
import Lcpl.Analysis.Signature

/-!
# Semantic analysis

Analysis runs in phases, and each phase ends the whole run at its first error: the class hierarchy,
the signatures of features, the search for inheritance cycles, the bodies class by class, and the
entry point. A program that is rejected keeps the annotations made until then.

The expressions of the program have to form trees (`Program.checkForest`).

## Main definitions

* `Analysis.attributeBy`, `Analysis.methodBy`, `Analysis.classBy` — the features of a class, by a
  given check of expressions
* `Analysis.checkAttribute`, `Analysis.checkMethod`, `Analysis.checkClass` — by `Body.checkExpr`
* `Run` — the state of a run
* `Analysis.declare`, `Analysis.runBy` — the phases up to the signatures, and all of them
* `Program.analyseBy`, `Program.analyse` — the analysis of a program
* `Program.declarations` — the registry with the signatures of a program
-/

namespace Lcpl

/-- The expressions of the program, with the log. -/
structure Checking where
  arena : Arena
  log : Array Event

/-- The state of a run. -/
structure Run where
  program : Program
  registry : Registry
  log : Array Event

/-- What a run ends with: the registry or the failure, the annotated program, and the log. -/
structure Outcome where
  result : Except Failure Registry
  program : Program
  log : Array Event

namespace Analysis

/-! ### Features -/

/-- Checks a body or initial value, beginning with the root scope. -/
def body {α β : Type} (step : Body β) : Step (Checking × α) β :=
  Step.within (fun (state, _) => ⟨state.arena, .empty, state.log⟩)
    (fun session (_, declaration) => (⟨session.arena, session.log⟩, declaration)) step

section Features

variable (check : Context → ExprId → Body Ty) (registry : Registry) (id : ClassId)

/-- Checks an attribute of a class. -/
def attributeBy : Step (Checking × Attribute) Unit := do
  let (_, a) ← get
  Step.ofExcept (registry.checkRedefinition id a.name)
  match a.init with
  | none => pure ()
  | some init =>
      let attr ← Step.demand (.missingFeature id a.name) (registry.ownAttribute? id a.name)
      let className ← Step.demand (.missingClass id) (registry.name? id)
      let a := { a with recordedSelf := some (.receiver a.line className) }
      modify fun (state, _) => (state, a)
      let expectation : Expectation := .initial attr.ty a.line
      let root ← body (expectation.checkBy check ⟨registry, id, a.line, []⟩ init)
      modify fun (state, _) => (state, { a with init := some root })

/-- Checks a method of a class. -/
def methodBy : Step (Checking × Method) Unit := do
  let (_, m) ← get
  Step.ofExcept (registry.checkOverride id m.name)
  match m.body with
  | none => pure ()
  | some root =>
      let method ← Step.demand (.missingFeature id m.name) (registry.ownMethod? id m.name)
      let expectation := Expectation.ofReturn method.returnTy m.line
      let root ← body (expectation.checkBy check ⟨registry, id, m.line, method.params⟩ root)
      modify fun (state, _) => (state, { m with body := some root })

/-- Checks the features of a class: the attributes first, then the methods. -/
def classBy : Step (Checking × Class) Unit := do
  modify fun (state, c) => ({ state with log := state.log.push (.bodyStarted c.name) }, c)
  Class.eachFeature (Feature.onAttribute (attributeBy check registry id))
  Class.eachFeature (Feature.onMethod (methodBy check registry id))

end Features

@[inherit_doc attributeBy]
abbrev checkAttribute := attributeBy Body.checkExpr

@[inherit_doc methodBy]
abbrev checkMethod := methodBy Body.checkExpr

@[inherit_doc classBy]
abbrev checkClass := classBy Body.checkExpr

/-! ### Phases -/

/-- The number of the class at a position of the program: the built-in classes come first. -/
def classId (position : Nat) : ClassId := ⟨Registry.builtin.size + position⟩

/-- Reports an event. -/
def emit (event : Event) : Step Run Unit :=
  modify fun run => { run with log := run.log.push event }

/-- Builds the class hierarchy. -/
def resolveHierarchy : Step Run Unit := do
  let run ← get
  Step.within (fun run => ⟨run.registry, run.log⟩)
    (fun state run => { run with registry := state.registry, log := state.log })
    (do
      Hierarchy.register run.program.classes
      Hierarchy.linkParents)

/-- Records the resolved parent of every class. -/
def recordParents : Step Run Unit :=
  modify fun run =>
    let classes := run.program.classes.mapIdx fun position c =>
      { c with
        recordedParent := (run.registry.parent? (classId position)).bind run.registry.name? }
    { run with program := { run.program with classes } }

/-- Resolves the signatures of every class. -/
def resolveSignatures : Step Run Unit :=
  Step.within (fun run => (⟨run.registry, run.log⟩, run.program.classes))
    (fun (state, classes) run =>
      { program := { run.program with classes }, registry := state.registry, log := state.log })
    (Step.each fun position => Signature.declareClass (classId position))

/-- Checks the bodies of every class, by a given check of expressions. -/
def bodiesBy (check : Context → ExprId → Body Ty) : Step Run Unit := do
  let run ← get
  Step.within (fun run => (⟨run.program.exprs, run.log⟩, run.program.classes))
    (fun (state, classes) run =>
      { run with program := { run.program with classes, exprs := state.arena }, log := state.log })
    (Step.each fun position => classBy check run.registry (classId position))

/-- Checks the bodies of every class. -/
abbrev checkBodies : Step Run Unit := bodiesBy Body.checkExpr

/-- The phases up to the signatures. -/
def declare : Step Run Unit := do
  resolveHierarchy
  emit .hierarchyResolved
  recordParents
  resolveSignatures
  emit .signaturesResolved

/-- All phases, by a given check of expressions. -/
def runBy (check : Context → ExprId → Body Ty) : Step Run Unit := do
  declare
  Step.ofExcept (← get).registry.checkCycles
  emit .hierarchyAcyclic
  bodiesBy check
  emit .bodiesChecked
  let run ← get
  Step.ofExcept (run.registry.checkEntry run.program.line)
  emit .entryFound

/-- All phases. -/
abbrev run : Step Run Unit := runBy Body.checkExpr

/-- The state in which a run begins: the built-in classes are registered, and shown in the
program. -/
def start (program : Program) : Run :=
  { program := { program with builtins := Registry.builtin.builtinClasses }
    registry := Registry.builtin
    log := #[] }

end Analysis

namespace Program

/-- Analyses a program, by a given check of expressions. -/
def analyseBy (check : Context → ExprId → Body Ty) (program : Program) : Outcome :=
  let (result, run) := (Analysis.runBy check).runFrom (Analysis.start program)
  { result := result.map fun _ => run.registry, program := run.program, log := run.log }

/-- Analyses a program. -/
def analyse (program : Program) : Outcome := program.analyseBy Body.checkExpr

/-- The registry with the classes of a program and the signatures of their features. -/
def declarations (program : Program) : Except Failure Registry :=
  let (result, run) := Analysis.declare.runFrom (Analysis.start program)
  result.map fun _ => run.registry

end Program

end Lcpl
