/-!
# Nested scopes

A table of definitions with nested scopes. There is always a root scope; others are entered and left
again. A definition hides those of the same name made outside, for as long as its scope is active.

## Main definitions

* `Scopes` — the scopes in force, innermost first
* `Scopes.enter`, `Scopes.leave?`, `Scopes.define` — the operations
* `Scopes.find?` — the visible definition of a name
* `Scopes.own?` — the definition of a name in the innermost scope, which a new one replaces

## Main results

* `Scopes.leave?_enter`, `Scopes.leave?_define` — a scope takes its definitions with it
* `Scopes.find?_enter`, `Scopes.find?_define` — what each operation does to the visible definitions
-/

namespace Lcpl

/-- The scopes in force. A scope lists its definitions, the latest first. -/
structure Scopes (κ ν : Type) where
  root : List (κ × ν)
  inner : List (List (κ × ν))
deriving DecidableEq, Repr

namespace Scopes

variable {κ ν : Type}

/-- The root scope alone, without definitions. -/
def empty : Scopes κ ν := ⟨[], []⟩

/-- The number of scopes entered and not yet left. -/
def depth (scopes : Scopes κ ν) : Nat := scopes.inner.length

/-- Enters a new scope. -/
def enter (scopes : Scopes κ ν) : Scopes κ ν := { scopes with inner := [] :: scopes.inner }

/-- Leaves the innermost scope with its definitions. The root scope cannot be left. -/
def leave? (scopes : Scopes κ ν) : Option (Scopes κ ν) :=
  match scopes.inner with
  | [] => none
  | _ :: inner => some { scopes with inner }

/-- The innermost scope. -/
def current (scopes : Scopes κ ν) : List (κ × ν) := scopes.inner.headD scopes.root

/-- Defines a name in the innermost scope. -/
def define (scopes : Scopes κ ν) (name : κ) (value : ν) : Scopes κ ν :=
  match scopes.inner with
  | [] => { scopes with root := (name, value) :: scopes.root }
  | scope :: inner => { scopes with inner := ((name, value) :: scope) :: inner }

/-! ### Depth -/

@[simp] theorem depth_empty : (empty : Scopes κ ν).depth = 0 := rfl

@[simp] theorem depth_enter (scopes : Scopes κ ν) : scopes.enter.depth = scopes.depth + 1 := rfl

@[simp] theorem depth_define (scopes : Scopes κ ν) (name : κ) (value : ν) :
    (scopes.define name value).depth = scopes.depth := by
  unfold define depth
  split
  · next h => simp [h]
  · next h => simp [h]

theorem leave?_eq_none_iff {scopes : Scopes κ ν} : scopes.leave? = none ↔ scopes.depth = 0 := by
  unfold leave? depth
  split
  · next h => simp [h]
  · next h => simp [h]

/-! ### Entering and leaving -/

@[simp] theorem leave?_enter (scopes : Scopes κ ν) : scopes.enter.leave? = some scopes := rfl

/-- A definition goes with its scope. -/
theorem leave?_define {scopes : Scopes κ ν} (h : 0 < scopes.depth) (name : κ) (value : ν) :
    (scopes.define name value).leave? = scopes.leave? := by
  obtain ⟨root, inner⟩ := scopes
  cases inner with
  | nil => simp [depth] at h
  | cons scope inner => rfl

variable [BEq κ]

/-- The definition of a name in the innermost scope. -/
def own? (scopes : Scopes κ ν) (name : κ) : Option ν := scopes.current.lookup name

/-- The visible definition of a name: the latest one in the innermost scope that has one. -/
def find? (scopes : Scopes κ ν) (name : κ) : Option ν :=
  (scopes.inner ++ [scopes.root]).findSome? (·.lookup name)

/-! ### Visible definitions -/

@[simp] theorem find?_empty (name : κ) : (empty : Scopes κ ν).find? name = none := rfl

@[simp] theorem find?_enter (scopes : Scopes κ ν) (name : κ) :
    scopes.enter.find? name = scopes.find? name := rfl

/-- A new definition is the visible one of its name, and hides no other name. -/
theorem find?_define (scopes : Scopes κ ν) (name other : κ) (value : ν) :
    (scopes.define name value).find? other =
      if other == name then some value else scopes.find? other := by
  obtain ⟨root, inner⟩ := scopes
  cases inner with
  | nil => cases hn : other == name <;> simp [define, find?, List.lookup_cons, hn]
  | cons scope inner =>
    cases hn : other == name <;> simp [define, find?, List.lookup_cons, List.findSome?_cons, hn]

end Scopes

end Lcpl
