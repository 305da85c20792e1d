import Mathlib.Data.List.Nodup
import Mathlib.Data.List.Pairwise
import Lcpl.Proofs.Tree.References

/-!
# Positions in a program

Where a node stands is told by the way that leads to it from a root. Of the nodes on that way, the
ones that matter to a name are the local definitions whose scope the way goes through. A way into
the initial value of a local definition, or past it, does not count.

In a program whose expressions form trees there is one way to each node, so that the local
definitions are determined by the node.

## Main definitions

* `Definition` — a local definition as it is written
* `Node.binds?` — the local definition that a node makes for one of its parts
* `Arena.Behind` — the local definitions that a node stands behind, the innermost one first

## Main results

* `Program.parent_unique`, `Program.root_not_mem_children` — no node is held by two slots
* `Program.behind_unique` — a node stands behind one list of local definitions
-/

namespace Lcpl

/-- A local definition as it is written, with its line. -/
structure Definition where
  name : String
  typeName : String
  line : Line
deriving DecidableEq, Repr

/-- The local definition that a node makes for one of its parts. It makes none for its initial
value. -/
def Node.binds? (node : Node) (part : ExprId) : Option Definition :=
  match node.expr with
  | .localDefinition name typeName _ scope _ =>
      if scope = some part then some ⟨name, typeName, node.line⟩ else none
  | _ => none

theorem Node.binds?_eq_some_iff {node : Node} {part : ExprId} {d : Definition} :
    node.binds? part = some d ↔ d.line = node.line ∧
      ∃ init type, node.expr = .localDefinition d.name d.typeName init (some part) type := by
  obtain ⟨line, expr, recordedType⟩ := node
  obtain ⟨name, typeName, line'⟩ := d
  cases expr with
  | localDefinition name' typeName' init scope type =>
    by_cases hscope : scope = some part <;> simp [binds?, hscope, eq_comm, and_comm, and_assoc]
  | _ => simp [binds?]

namespace Arena

/-- The node is below the root, and stands behind the local definitions, the innermost one first. -/
inductive Behind (a : Arena) (root : ExprId) : ExprId → List Definition → Prop where
  | root : Behind a root root []
  | part {id defs node child} (h : Behind a root id defs) (hget : a.get? id = some node)
      (hchild : child ∈ node.expr.children) :
      Behind a root child ((node.binds? child).toList ++ defs)

variable {a : Arena} {root id : ExprId} {defs : List Definition}

theorem Behind.isBelow (h : a.Behind root id defs) : a.Below root id := by
  induction h with
  | root => exact .root
  | part _ hget hchild ih => exact .part ih hget hchild

end Arena

namespace Program

variable {p : Program} {root id x y : ExprId} {node node' : Node} {defs defs' : List Definition}

theorem nodup_reachedSlots (h : p.checkForest = .ok ()) :
    (p.reachedSlots.map Slot.child).Nodup := by
  have hinside : p.Inside := by
    by_contra hnot
    obtain ⟨slot, hslot⟩ := exists_firstDangling_iff.mpr hnot
    cases h.symm.trans (checkForest_eq_dangling_iff.mpr hslot)
  rcases checkForest_of_inside hinside with ⟨slot, hshared, -⟩ | ⟨-, hnodup⟩
  · cases h.symm.trans hshared
  · exact hnodup

theorem mem_child_childSlots (hget : p.exprs.get? x = some node) :
    id ∈ (p.exprs.childSlots x).map Slot.child ↔ id ∈ node.expr.children := by
  simp [Arena.childSlots, hget]

theorem Reached.mem_filter_ids [DecidablePred p.Reached] (hx : p.Reached x)
    (hget : p.exprs.get? x = some node) : x ∈ p.exprs.ids.filter (p.Reached ·) := by
  rw [List.mem_filter, Arena.mem_ids, decide_eq_true_iff]
  exact ⟨Arena.lt_of_get? hget, hx⟩

/-- No two nodes below the roots have a part in common. -/
theorem parent_unique (h : p.checkForest = .ok ()) (hx : p.Reached x) (hy : p.Reached y)
    (hgetx : p.exprs.get? x = some node) (hgety : p.exprs.get? y = some node')
    (hidx : id ∈ node.expr.children) (hidy : id ∈ node'.expr.children) : x = y := by
  classical
  have hnodup := nodup_reachedSlots h
  rw [reachedSlots, List.map_append, List.map_flatMap] at hnodup
  have hapart := (List.nodup_flatMap.mp hnodup.of_append_right).2
  have hsymm : Std.Symm (Function.onFun List.Disjoint fun x =>
      (p.exprs.childSlots x).map Slot.child) := ⟨fun _ _ hdisjoint => List.disjoint_symm hdisjoint⟩
  by_contra hne
  have hdisjoint := hapart.forall (hx.mem_filter_ids hgetx) (hy.mem_filter_ids hgety) hne
  exact hdisjoint ((mem_child_childSlots hgetx).mpr hidx) ((mem_child_childSlots hgety).mpr hidy)

/-- A root is not part of a node below the roots. -/
theorem root_not_mem_children (h : p.checkForest = .ok ())
    (hroot : root ∈ p.rootSlots.map Slot.child) (hx : p.Reached x)
    (hgetx : p.exprs.get? x = some node) : root ∉ node.expr.children := by
  classical
  intro hmem
  have hnodup := nodup_reachedSlots h
  rw [reachedSlots, List.map_append, List.map_flatMap] at hnodup
  exact List.disjoint_of_nodup_append hnodup hroot
    (List.mem_flatMap.mpr ⟨x, hx.mem_filter_ids hgetx, (mem_child_childSlots hgetx).mpr hmem⟩)

/-- There is one way to each node, so a node stands behind one list of local definitions. -/
theorem behind_unique (h : p.checkForest = .ok ()) (hroot : root ∈ p.rootSlots.map Slot.child)
    (hdefs : p.exprs.Behind root id defs) (hdefs' : p.exprs.Behind root id defs') :
    defs = defs' := by
  have hreached {x : ExprId} {defs : List Definition} (hx : p.exprs.Behind root x defs) :
      p.Reached x := by
    obtain ⟨slot, hslot, rfl⟩ := List.mem_map.mp hroot
    exact ⟨slot, hslot, hx.isBelow⟩
  -- two ways to a node have come through the same node before, whose ways are the same
  induction hdefs generalizing defs' with
  | root =>
    cases hdefs' with
    | root => rfl
    | part hx hget hchild => exact absurd hchild (root_not_mem_children h hroot (hreached hx) hget)
  | @part x _ _ child hx hget hchild ih =>
    cases hdefs' with
    | root => exact absurd hchild (root_not_mem_children h hroot (hreached hx) hget)
    | part hy hget' hchild' =>
      obtain rfl := parent_unique h (hreached hx) (hreached hy) hget hget' hchild hchild'
      obtain rfl := Option.some_inj.mp (hget.symm.trans hget')
      rw [ih hy]

end Program

end Lcpl
