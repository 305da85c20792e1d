import Lcpl.Analysis.Step
import Lcpl.Body.Variable
import Lcpl.Registry.Subtyping

/-!
# Sessions

The check of a body works on a session: the arena with the body's nodes, the local definitions in
force, and the log. This module has the steps that the rules are made of.

Where a value is converted, a cast is allocated in the arena, and the caller points the slot that
held the value at the cast.

## Main definitions

* `Session`, `Body` — the state of a check, and steps on it
* `Body.node`, `Body.alloc`, `Body.record` — access to the nodes
* `Body.inScope`, `Body.define` — local definitions
* `Body.convert` — the use of a value where a type is expected
-/

namespace Lcpl

/-- The state of a check: the nodes, the local definitions in force, and the log. -/
structure Session where
  arena : Arena
  scopes : Scopes String Variable
  log : Array Event

/-- A step of checking a body. -/
abbrev Body (α : Type) := Step Session α

namespace Body

variable {α : Type}

/-! ### Nodes and scopes -/

/-- Reports an event. -/
def emit (event : Event) : Body Unit :=
  modify fun session => { session with log := session.log.push event }

/-- The node of a handle. -/
def node (id : ExprId) : Body Node := do
  let session ← get
  Step.demand (.missingNode id) (session.arena.get? id)

/-- Appends a node with its type. -/
def alloc (line : Line) (expr : Expr) (type : TypeName) : Body ExprId := do
  let session ← get
  set { session with arena := session.arena.alloc { line, expr, recordedType := some type } }
  return session.arena.next

/-- Writes the annotated form of an expression and its type into a node. -/
def record (id : ExprId) (expr : Expr) (type : TypeName) : Body Unit := do
  let old ← node id
  modify fun session =>
    { session with
      arena := session.arena.set id { line := old.line, expr, recordedType := some type } }

/-- Runs a step in a new scope. The scope is left also when the step fails. -/
def inScope (step : Body α) : Body α := do
  modify fun session => { session with scopes := session.scopes.enter }
  let (result, after) := step.runFrom (← get)
  set after
  let scopes ← Step.demand .rootScopeLeft after.scopes.leave?
  set { after with scopes }
  Step.ofExcept result

/-- Defines a local variable in the innermost scope. -/
def define (name : String) (line : Line) (ty : Ty) : Body Unit :=
  modify fun session =>
    { session with scopes := session.scopes.define name (.letBound name line ty) }

/-! ### Types and their names

These steps need no session: they run on any state. -/

variable {σ : Type}

/-- The form in which a type is recorded. -/
def label (Γ : Context) (ty : Ty) : Step σ TypeName :=
  Step.demand (.unknownType ty) (Γ.registry.label? ty)

/-- The name of a type. -/
def typeName (Γ : Context) (ty : Ty) : Step σ String := return (← label Γ ty).text

/-- The name of a class. -/
def className (Γ : Context) (id : ClassId) : Step σ String :=
  Step.demand (.missingClass id) (Γ.registry.name? id)

/-- The type of a name in a declaration. -/
def resolve (Γ : Context) (typeName : String) (line : Line) : Step σ Ty :=
  match Γ.registry.resolve? typeName with
  | some ty => pure ty
  | none => Step.reject (.classNotFound typeName) line

/-- Rejects a name that stands for no variable. -/
def rejectVariable (Γ : Context) (name : String) (line : Line) : Step σ α := do
  Step.reject (.attributeNotFound name (← className Γ Γ.currentClass)) line

/-! ### Conversions -/

/-- Wraps a node in a cast. -/
def wrapInCast (Γ : Context) (operand : ExprId) (target : Ty) (line : Line) : Body ExprId := do
  let type ← label Γ target
  let cast ← alloc line (.cast type.text operand) type
  emit (.castInserted cast type.text operand)
  return cast

/-- The line of a cast: that of the conversion's site for a number, that of the value for anything
else. -/
def castLine (id : ExprId) (source : Ty) (site : Line) : Body Line :=
  if source = .int then pure site
  else do
    let value ← node id
    return value.line

/-- Uses a value of type `source` where `target` is expected, and yields the node to put into its
slot. -/
def convert (Γ : Context) (id : ExprId) (source target : Ty) (site : Line) : Body ExprId :=
  match Γ.registry.conversion? source target with
  | some .keep => pure id
  | some (.cast target) => do
      let line ← castLine id source site
      wrapInCast Γ id target line
  | none => do
      Step.reject (.cannotConvert (← typeName Γ source) (← typeName Γ target)) site

end Body

end Lcpl
