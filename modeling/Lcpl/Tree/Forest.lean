import Lcpl.Tree.Program

/-!
# References between expressions

A loaded program may hold handles that lead nowhere, or nodes that hang off two slots at once.
Analysis redirects slots in place, so it needs the expressions of a program to form trees: every
slot leads to a node, and no node is reached twice.

## Main definitions

* `Slot` — a place that holds a handle, with its owner
* `Program.rootSlots`, `Arena.childSlots`, `Program.slots` — the slots of a program
* `Arena.revisited?` — the first slot, in the order of the walk, that leads to a node already seen
* `Program.checkForest` — the check, with the first problem it meets
-/

namespace Lcpl

/-- What holds a slot: a feature of a class, or an expression node. -/
inductive Owner where
  | feature (className name : String)
  | node (id : ExprId)
deriving DecidableEq, Repr

/-- An owner as it is named in messages. -/
def Owner.text : Owner → String
  | feature className name => className ++ "." ++ name
  | node id => id.text

/-- A place that holds a handle. -/
structure Slot where
  owner : Owner
  child : ExprId
deriving DecidableEq, Repr

/-- Why the expressions of a program do not form trees. -/
inductive ReferenceError where
  /-- A slot leads to no node. -/
  | dangling (slot : Slot)
  /-- A slot leads to a node that was reached before. -/
  | shared (slot : Slot)
deriving DecidableEq, Repr

/-- The wording of a reference error. -/
def ReferenceError.message : ReferenceError → String
  | dangling slot =>
      "expression " ++ slot.owner.text ++ " refers to missing expression " ++ slot.child.text
  | shared slot =>
      "expression " ++ slot.child.text ++ " is reached a second time from " ++ slot.owner.text

/-- The root slots of a class: method bodies and initial values, in declaration order. -/
def Class.rootSlots (c : Class) : List Slot :=
  c.features.filterMap fun feature =>
    feature.root.map fun root => ⟨.feature c.name feature.name, root⟩

/-- The slots of a node, in evaluation order. -/
def Arena.childSlots (arena : Arena) (id : ExprId) : List Slot :=
  match arena.get? id with
  | some node => node.expr.children.map fun child => ⟨.node id, child⟩
  | none => []

/-- The root slots of a program: its own classes first, then the built-in ones. -/
def Program.rootSlots (p : Program) : List Slot :=
  (p.classes ++ p.builtins).flatMap Class.rootSlots

/-- Every slot of a program: the roots, then those of each node by handle. -/
def Program.slots (p : Program) : List Slot :=
  p.rootSlots ++ p.exprs.ids.flatMap p.exprs.childSlots

/-- Walks the nodes below the pending slots, the last pushed slot first, and returns the first slot
that leads to a node in `seen`. The first argument counts the nodes not seen yet: when it is zero,
whatever is still pending leads to a node for the second time. -/
def Arena.revisited? (arena : Arena) : Nat → List ExprId → List Slot → Option Slot
  | _, _, [] => none
  | 0, _, slot :: _ => some slot
  | unseen + 1, seen, slot :: pending =>
      if slot.child ∈ seen then some slot
      else
        arena.revisited? unseen (slot.child :: seen)
          ((arena.childSlots slot.child).reverse ++ pending)

/-- Checks that every slot leads to a node and that no node is reached twice from the roots. The
first dangling slot is reported before any sharing. -/
def Program.checkForest (p : Program) : Except ReferenceError Unit :=
  match p.slots.find? fun slot => !p.exprs.contains slot.child with
  | some slot => .error (.dangling slot)
  | none =>
      match p.exprs.revisited? p.exprs.size [] p.rootSlots.reverse with
      | some slot => .error (.shared slot)
      | none => .ok ()

end Lcpl
