import Lcpl.Tree.Expr

/-!
# The arena of expression nodes

An arena owns every expression of a program. Nodes are only ever appended, so a handle that is
valid once stays valid. To change the tree, a node is allocated and a slot of its parent is pointed
at it.

## Main definitions

* `Node` — an expression with its line and recorded type
* `Arena` — the nodes, by handle
* `Arena.get?`, `Arena.set`, `Arena.alloc` — reading, replacing and appending a node

## Main results

* `Arena.get?_set`, `Arena.get?_alloc` — what each operation does to the view by handle
-/

namespace Lcpl

/-- An expression with its line and, once analysed, its type. -/
structure Node where
  line : Line
  expr : Expr
  recordedType : Option TypeName
deriving DecidableEq, Repr

/-- The nodes of a program, in the order in which they were allocated. -/
structure Arena where
  nodes : Array Node
deriving DecidableEq, Repr

namespace Arena

/-- The arena without nodes. -/
def empty : Arena := ⟨#[]⟩

/-- The number of nodes. -/
def size (arena : Arena) : Nat := arena.nodes.size

/-- The node of a handle. -/
def get? (arena : Arena) (id : ExprId) : Option Node := arena.nodes[id.index]?

/-- Whether a handle belongs to a node. -/
def contains (arena : Arena) (id : ExprId) : Bool := id.index < arena.size

/-- The handle that the next allocated node receives. -/
def next (arena : Arena) : ExprId := ⟨arena.size⟩

/-- Appends a node, whose handle is `next`. -/
def alloc (arena : Arena) (node : Node) : Arena := ⟨arena.nodes.push node⟩

/-- Replaces the node of a handle; a handle without node changes nothing. -/
def set (arena : Arena) (id : ExprId) (node : Node) : Arena :=
  ⟨arena.nodes.setIfInBounds id.index node⟩

/-- Every handle of the arena, in order. -/
def ids (arena : Arena) : List ExprId := (List.range arena.size).map ExprId.mk

variable {arena : Arena} {id other : ExprId} {node : Node}

theorem contains_iff : arena.contains id = true ↔ id.index < arena.size := by
  simp [contains]

theorem get?_eq_some_get (h : id.index < arena.nodes.size) :
    arena.get? id = some arena.nodes[id.index] := by
  simp [get?, h]

theorem contains_iff_exists_get? :
    arena.contains id = true ↔ ∃ node, arena.get? id = some node := by
  rw [contains_iff]
  constructor
  · exact fun h => ⟨_, get?_eq_some_get h⟩
  · rintro ⟨node, h⟩
    exact (Array.getElem?_eq_some_iff.mp h).1

@[simp] theorem size_alloc : (arena.alloc node).size = arena.size + 1 := by
  simp [size, alloc]

@[simp] theorem size_set : (arena.set id node).size = arena.size := by
  simp [size, set]

theorem get?_alloc :
    (arena.alloc node).get? id = if id = arena.next then some node else arena.get? id := by
  obtain ⟨index⟩ := id
  simp [get?, alloc, next, size, Array.getElem?_push]

theorem get?_set :
    (arena.set id node).get? other =
      if other = id ∧ id.index < arena.size then some node else arena.get? other := by
  obtain ⟨i⟩ := id
  obtain ⟨j⟩ := other
  simp only [get?, set, size, Array.getElem?_setIfInBounds, ExprId.mk.injEq]
  by_cases h : i = j
  · subst h
    by_cases hi : i < arena.nodes.size <;> simp [hi]
  · have : ¬ j = i := fun e => h e.symm
    simp [h, this]

@[simp] theorem mem_ids : id ∈ arena.ids ↔ id.index < arena.size := by
  obtain ⟨index⟩ := id
  simp [ids]

end Arena

end Lcpl
