import Lcpl.Analysis.Event
import Lcpl.Registry.Basic
import Lcpl.Analysis.Error

/-!
# Steps of an analysis

A step changes a state and either yields a result or fails. A step that fails keeps the changes it
made until then: a rejected program is handed back with the annotations made so far.

A failure is a rejection of the program, or a fault: an operation was used outside its domain.
Faults have no wording, since analysis of a program whose references are sound never runs into one.

## Main definitions

* `Fault`, `Failure` — the ways to fail
* `Step` — a step on a state
* `Step.reject`, `Step.fault` — failing steps
* `Step.within` — a step on a part of a larger state
* `Step.each` — a step on every element of a list, until one fails

## Main results

* `Step.runFrom_bind` and the other equations for `Step.runFrom` — how each step is run
-/

namespace Lcpl

/-- An operation used outside its domain. -/
inductive Fault where
  /-- A handle without node. -/
  | missingNode (id : ExprId)
  /-- A class number that is not registered. -/
  | missingClass (id : ClassId)
  /-- The type of a class that is not registered. -/
  | unknownType (ty : Ty)
  /-- A feature that was not registered before its body is checked. -/
  | missingFeature (id : ClassId) (name : String)
  /-- More scopes left than entered. -/
  | rootScopeLeft
  /-- As many arguments as parameters were promised, and it was not so. -/
  | unevenArguments
  /-- As many parameters as in the overridden method were promised, and it was not so. -/
  | unevenParameters
  /-- An addition that no rule speaks of. -/
  | uncoveredAddition
  /-- Expressions nested deeper than the arena has nodes. -/
  | nestedTooDeep
deriving DecidableEq, Repr

/-- Why a step failed. -/
inductive Failure where
  | rejected (error : Located SemanticError)
  | fault (fault : Fault)
deriving DecidableEq, Repr

/-- A step on a state, which keeps its changes also when it fails. -/
abbrev Step (σ α : Type) := ExceptT Failure (StateM σ) α

namespace Step

variable {σ τ α β : Type}

/-- Rejects the program at a line. -/
def reject (error : SemanticError) (line : Line) : Step σ α :=
  throw (.rejected ⟨line, error⟩)

/-- Fails with a fault. -/
def fault (fault : Fault) : Step σ α := throw (.fault fault)

/-- The value, or else a fault. -/
def demand (fault : Fault) : Option α → Step σ α
  | some value => pure value
  | none => Step.fault fault

/-- Runs a step from a state: its result, and the state it leaves. -/
def runFrom (state : σ) (step : Step σ α) : Except Failure α × σ := step.run.run state

/-- A result that is already known. -/
def ofExcept (result : Except Failure α) : Step σ α := ExceptT.mk (pure result)

/-- Runs a step on a part of the state. -/
def within (part : τ → σ) (put : σ → τ → τ) (step : Step σ α) : Step τ α := do
  let state ← get
  let (result, changed) := step.runFrom (part state)
  set (put changed state)
  ofExcept result

/-- Runs a step on the elements of a list in turn, each beside a common state, until one fails. The
step is given the position of its element. The element at which it fails is left as the step leaves
it, and those behind it are not touched. -/
def eachFrom (step : Nat → Step (σ × α) Unit) :
    Nat → List α → σ → Except Failure Unit × (σ × List α)
  | _, [], state => (.ok (), state, [])
  | position, item :: items, state =>
      match (step position).runFrom (state, item) with
      | (.error failure, state, item) => (.error failure, state, item :: items)
      | (.ok (), state, item) =>
          let (result, state, items) := eachFrom step (position + 1) items state
          (result, state, item :: items)

/-- Runs a step on every element of a list. The elements are counted from zero. -/
def each (step : Nat → Step (σ × α) Unit) : Step (σ × List α) Unit := do
  let (state, items) ← get
  let (result, changed) := eachFrom step 0 items state
  set changed
  ofExcept result

/-! ### Running steps -/

@[simp] theorem runFrom_pure (value : α) (state : σ) :
    (pure value : Step σ α).runFrom state = (.ok value, state) := rfl

/-- The second step runs in the state that the first one leaves, unless that one fails. -/
theorem runFrom_bind (first : Step σ α) (second : α → Step σ β) (state : σ) :
    (first >>= second).runFrom state =
      match first.runFrom state with
      | (.ok value, after) => (second value).runFrom after
      | (.error failure, after) => (.error failure, after) := by
  simp only [runFrom, ExceptT.run_bind, StateT.run_bind]
  generalize StateT.run (ExceptT.run first) state = ran
  obtain ⟨result, after⟩ := ran
  cases result <;> rfl

@[simp] theorem runFrom_get (state : σ) : (get : Step σ σ).runFrom state = (.ok state, state) :=
  rfl

@[simp] theorem runFrom_set (state after : σ) :
    (set after : Step σ PUnit).runFrom state = (.ok ⟨⟩, after) := rfl

@[simp] theorem runFrom_modify (change : σ → σ) (state : σ) :
    (modify change : Step σ PUnit).runFrom state = (.ok ⟨⟩, change state) := rfl

@[simp] theorem runFrom_ofExcept (result : Except Failure α) (state : σ) :
    (ofExcept result).runFrom state = (result, state) := rfl

@[simp] theorem runFrom_reject (error : SemanticError) (line : Line) (state : σ) :
    (reject error line : Step σ α).runFrom state = (.error (.rejected ⟨line, error⟩), state) := rfl

@[simp] theorem runFrom_fault (f : Fault) (state : σ) :
    (fault f : Step σ α).runFrom state = (.error (.fault f), state) := rfl

@[simp] theorem runFrom_demand_some (f : Fault) (value : α) (state : σ) :
    (demand f (some value)).runFrom state = (.ok value, state) := rfl

@[simp] theorem runFrom_demand_none (f : Fault) (state : σ) :
    (demand f (none : Option α)).runFrom state = (.error (.fault f), state) := rfl

/-- A run with a known result, and whatever state it leaves. -/
theorem runFrom_eq_of_fst {step : Step σ α} {state : σ} {result : Except Failure α}
    (h : (step.runFrom state).1 = result) :
    step.runFrom state = (result, (step.runFrom state).2) :=
  Prod.ext h rfl

theorem runFrom_within (part : τ → σ) (put : σ → τ → τ) (step : Step σ α) (state : τ) :
    (step.within part put).runFrom state =
      ((step.runFrom (part state)).1, put (step.runFrom (part state)).2 state) := rfl

theorem runFrom_each (step : Nat → Step (σ × α) Unit) (state : σ) (items : List α) :
    (each step).runFrom (state, items) = eachFrom step 0 items state := rfl

end Step

end Lcpl
