import Lcpl.Proofs.Arena.Reads
import Lcpl.Registry.Basic

/-!
# Nodes below a root

The nodes below a root are found by following the parts of each node. A cast to an unknown type is
not looked into by the analysis, so the nodes below such a cast are below the root and yet not
reached from it.

## Main definitions

* `Arena.Below` — the nodes below a root
* `Arena.Reachable` — the nodes below a root that are not below a cast to an unknown type
* `Arena.Records` — the type that a node records

## Main results

* `Arena.Reads.mem_iff_below` — a reading meets exactly the nodes below its root
* `Arena.Reads.reachable_iff` — what is reached depends on the nodes that a reading meets only
-/

namespace Lcpl

variable {ι : Type}

namespace Arena

/-- The node is below the root. -/
inductive Below (a : Arena) (root : ExprId) : ExprId → Prop where
  | root : Below a root root
  | part {id node child} (h : Below a root id) (hget : a.get? id = some node)
      (hchild : child ∈ node.expr.children) : Below a root child

/-- The node is below the root, and not below a cast to an unknown type. -/
inductive Reachable (registry : Registry) (a : Arena) (root : ExprId) : ExprId → Prop where
  | root : Reachable registry a root root
  | part {id node child} (h : Reachable registry a root id) (hget : a.get? id = some node)
      (hchild : child ∈ node.expr.children)
      (hcast : ∀ typeName operand, node.expr = .cast typeName operand →
        (registry.resolve? typeName).isSome) :
      Reachable registry a root child

/-- The node records the type: `Int`, no value, `void`, or the name of a class. -/
def Records (a : Arena) (registry : Registry) (id : ExprId) (ty : Ty) : Prop :=
  ∃ node type, a.get? id = some node ∧ node.recordedType = some type ∧
    registry.label? ty = some type

variable {a b : Arena} {registry : Registry} {mark : ExprId → ι} {root id x child : ExprId}
variable {t : Term ι} {ids : List ExprId} {node : Node} {ty : Ty}

theorem Records.of_get? (h : a.Records registry id ty) (hget : b.get? id = a.get? id) :
    b.Records registry id ty := by
  obtain ⟨node, type, hnode, htype, hlabel⟩ := h
  exact ⟨node, type, hget.trans hnode, htype, hlabel⟩

theorem Reachable.isBelow (h : a.Reachable registry root id) : a.Below root id := by
  induction h with
  | root => exact .root
  | part _ hget hchild _ ih => exact .part ih hget hchild

theorem Reachable.trans (h : a.Reachable registry root id) (h' : a.Reachable registry id x) :
    a.Reachable registry root x := by
  induction h' with
  | root => exact h
  | part _ hget hchild hcast ih => exact .part ih hget hchild hcast

/-- The parts of a node that a reading meets are met by it too. -/
theorem Reads.child_mem (h : a.Reads mark root t ids) (hx : x ∈ ids) (hget : a.get? x = some node)
    (hchild : child ∈ node.expr.children) : child ∈ ids := by
  induction t using Term.induction generalizing root ids with
  | node m line form type ih =>
    cases h with
    | node form hroot hparts =>
      rcases List.mem_cons.mp hx with rfl | hx
      · obtain rfl := Option.some_inj.mp (hget.symm.trans hroot)
        rw [Form.children_map] at hchild
        obtain ⟨part, hpart, rfl⟩ := List.mem_map.mp hchild
        obtain ⟨own, hread, hsub⟩ := hparts.exists_of_mem hpart
        exact List.mem_cons_of_mem _ (hsub hread.mem_self)
      · -- the node is met below one of the parts, and so are its own parts
        obtain ⟨part, hpart, own, hread, hx, hsub⟩ := hparts.exists_of_mem_handles hx
        have hmem := ih part.2 (Form.mem_children_map hpart) hread hx
        exact List.mem_cons_of_mem _ (hsub hmem)

theorem Reads.mem_of_below (h : a.Reads mark root t ids) (hx : a.Below root x) : x ∈ ids := by
  induction hx with
  | root => exact h.mem_self
  | part _ hget hchild ih => exact h.child_mem ih hget hchild

theorem Below.trans (h : a.Below root id) (h' : a.Below id x) : a.Below root x := by
  induction h' with
  | root => exact h
  | part _ hget hchild ih => exact .part ih hget hchild

/-- A reading meets exactly the nodes below its root. -/
theorem Reads.mem_iff_below (h : a.Reads mark root t ids) : x ∈ ids ↔ a.Below root x := by
  refine ⟨fun hx => ?_, h.mem_of_below⟩
  induction t using Term.induction generalizing root ids with
  | node m line form type ih =>
    cases h with
    | node form hroot hparts =>
      rcases List.mem_cons.mp hx with rfl | hx
      · exact .root
      · obtain ⟨part, hpart, own, hread, hx, -⟩ := hparts.exists_of_mem_handles hx
        have hbelow := ih part.2 (Form.mem_children_map hpart) hread hx
        exact (Below.part .root hroot (Form.mem_children_map hpart)).trans hbelow

/-- A reading of a node reads each of its parts, and meets other nodes there than the node. -/
theorem Reads.exists_of_child (h : a.Reads mark id t ids) (hnodup : ids.Nodup)
    (hget : a.get? id = some node) (hchild : child ∈ node.expr.children) :
    ∃ u own, a.Reads mark child u own ∧ own.Nodup ∧ id ∉ own := by
  cases h with
  | node form hroot hparts =>
    obtain ⟨hid, hnodup⟩ := List.nodup_cons.mp hnodup
    obtain rfl := Option.some_inj.mp (hget.symm.trans hroot)
    rw [Form.children_map] at hchild
    obtain ⟨part, hpart, rfl⟩ := List.mem_map.mp hchild
    obtain ⟨front, back, hform⟩ := List.append_of_mem hpart
    rw [hform] at hparts
    obtain ⟨before, _, rfl, -, hrest⟩ := Jointly.append_iff.mp hparts
    obtain ⟨own, behind, rfl, hread, -⟩ := Jointly.cons_iff.mp hrest
    refine ⟨part.2, own, hread, ?_, fun hmem => hid (by simp [hmem])⟩
    exact (List.nodup_append.mp (List.nodup_append.mp hnodup).2.1).1

/-- Two parts of a node of a tree have no node below them together. -/
theorem Reads.pairwise_below (h : a.Reads mark id t ids) (hnodup : ids.Nodup)
    (hget : a.get? id = some node) :
    node.expr.children.Pairwise fun p q => ∀ x, a.Below p x → ¬ a.Below q x := by
  cases h with
  | node form hroot hparts =>
    obtain rfl := Option.some_inj.mp (hget.symm.trans hroot)
    rw [Form.children_map]
    refine ((hparts.pairwise (List.nodup_cons.mp hnodup).2).imp ?_).map _ fun _ _ h => h
    rintro p q ⟨own, own', hp, hq, hdisjoint⟩ x hx hx'
    exact hdisjoint (hp.mem_of_below hx) (hq.mem_of_below hx')

theorem Reads.reachable_of_get? (h : a.Reads mark root t ids)
    (hb : ∀ x ∈ ids, b.get? x = a.get? x) (hx : a.Reachable registry root x) :
    b.Reachable registry root x := by
  induction hx with
  | root => exact .root
  | part hid hget hchild hcast ih =>
    exact .part ih ((hb _ (h.mem_of_below hid.isBelow)).trans hget) hchild hcast

/-- What is reached depends on the nodes that a reading meets, and on nothing else. -/
theorem Reads.reachable_iff (h : a.Reads mark root t ids)
    (hb : ∀ x ∈ ids, b.get? x = a.get? x) :
    b.Reachable registry root x ↔ a.Reachable registry root x :=
  ⟨(h.of_get? hb).reachable_of_get? fun x hx => (hb x hx).symm, h.reachable_of_get? hb⟩

end Arena

end Lcpl
