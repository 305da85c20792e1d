import Mathlib.Data.List.Forall2
import Mathlib.Data.List.Perm.Basic
import Mathlib.Logic.Equiv.Basic
import Lcpl.Proofs.Tree.Forest

/-!
# The order of declarations

The classes of a program, and the features of each class, may be written down in any order. Two
programs that differ in nothing else have the same nodes. After an analysis they may differ in more:
the nodes that are made for a feature stand behind those of the features that were checked earlier.
So they are compared up to a renaming of handles.

## Main definitions

* `Class.Reordered`, `Class.ReorderedAll` — the same class, or the same classes, in another order
* `Program.Reordered` — the same program, up to the order of its declarations
* `Node.rename`, `Feature.rename`, `Class.rename` — other handles in place of those that occur
* `Program.ReorderedUpTo` — the same program, up to the order of its declarations and a renaming

## Main results

* `Class.ReorderedAll.symm`, `Class.ReorderedAll.exists_mem` — every class has its counterpart
* `Program.Reordered.checkForest` — reordered programs pass the check of the references together
-/

namespace Lcpl

/-! ### Classes -/

namespace Class

/-- The second class is the first one, with its features in another order. -/
structure Reordered (c d : Class) : Prop where
  line : d.line = c.line
  name : d.name = c.name
  parent : d.parent = c.parent
  recordedParent : d.recordedParent = c.recordedParent
  features : c.features.Perm d.features

/-- The classes of the second list are those of the first, in another order and each with its
features in another order. -/
def ReorderedAll (classes classes' : List Class) : Prop :=
  ∃ mid, classes.Perm mid ∧ List.Forall₂ Reordered mid classes'

variable {c d : Class} {classes classes' : List Class}

theorem Reordered.symm (h : c.Reordered d) : d.Reordered c :=
  ⟨h.line.symm, h.name.symm, h.parent.symm, h.recordedParent.symm, h.features.symm⟩

theorem Reordered.methods (h : c.Reordered d) : c.methods.Perm d.methods := h.features.filterMap _

theorem Reordered.attributes (h : c.Reordered d) : c.attributes.Perm d.attributes :=
  h.features.filterMap _

namespace ReorderedAll

theorem symm (h : ReorderedAll classes classes') : ReorderedAll classes' classes := by
  obtain ⟨mid, hperm, hall⟩ := h
  have hflip : List.Forall₂ Reordered classes' mid := (hall.imp fun _ _ h => h.symm).flip
  -- the two kinds of reordering may be exchanged
  have hcomp : Relation.Comp (List.Forall₂ Reordered) List.Perm classes' classes :=
    ⟨mid, hflip, hperm.symm⟩
  rwa [List.forall₂_comp_perm_eq_perm_comp_forall₂] at hcomp

/-- Every class of the second list is one of the first. -/
theorem exists_mem (h : ReorderedAll classes classes') (hd : d ∈ classes') :
    ∃ c ∈ classes, c.Reordered d := by
  obtain ⟨mid, hperm, hall⟩ := h
  suffices hmid : ∃ c ∈ mid, c.Reordered d by
    obtain ⟨c, hc, hcd⟩ := hmid
    exact ⟨c, hperm.mem_iff.mpr hc, hcd⟩
  clear hperm
  induction hall with
  | nil => cases hd
  | @cons c _ mid _ head _ ih =>
    rcases List.mem_cons.mp hd with rfl | hd
    · exact ⟨c, List.mem_cons_self, head⟩
    · obtain ⟨c', hc', hcd⟩ := ih hd
      exact ⟨c', List.mem_cons_of_mem c hc', hcd⟩

theorem map_name (h : ReorderedAll classes classes') :
    (classes.map Class.name).Perm (classes'.map Class.name) := by
  obtain ⟨mid, hperm, hall⟩ := h
  have hmid : mid.map Class.name = classes'.map Class.name := by
    clear hperm
    induction hall with
    | nil => rfl
    | cons head _ ih => rw [List.map_cons, List.map_cons, head.name, ih]
  exact hmid ▸ hperm.map Class.name

theorem map {f : Class → Class} (h : ReorderedAll classes classes')
    (hf : ∀ c d, c.Reordered d → (f c).Reordered (f d)) :
    ReorderedAll (classes.map f) (classes'.map f) := by
  obtain ⟨mid, hperm, hall⟩ := h
  refine ⟨mid.map f, hperm.map f, ?_⟩
  rw [List.forall₂_map_left_iff, List.forall₂_map_right_iff]
  exact hall.imp hf

theorem flatMap_roots (h : ReorderedAll classes classes') :
    (classes.flatMap Class.roots).Perm (classes'.flatMap Class.roots) := by
  obtain ⟨mid, hperm, hall⟩ := h
  have hmid : (mid.flatMap Class.roots).Perm (classes'.flatMap Class.roots) := by
    clear hperm
    induction hall with
    | nil => exact .refl _
    | cons head _ ih =>
      rw [List.flatMap_cons, List.flatMap_cons]
      exact (head.features.filterMap _).append ih
  exact (hperm.flatMap_right _).trans hmid

end ReorderedAll

end Class

/-! ### Handles -/

section Rename

variable (ρ : ExprId → ExprId)

/-- The node, with other handles for its parts. -/
def Node.rename (node : Node) : Node := { node with expr := node.expr.map ρ }

/-- The feature, with another handle for its root. -/
def Feature.rename : Feature → Feature
  | .method m => .method { m with body := m.body.map ρ }
  | .attribute a => .attribute { a with init := a.init.map ρ }

/-- The class, with other handles for the roots of its features. -/
def Class.rename (c : Class) : Class := { c with features := c.features.map (Feature.rename ρ) }

end Rename

/-- A node without its parts: the line, the form with all its annotations, and the recorded type. -/
def Node.face (node : Node) : Line × Form Unit × Option TypeName :=
  (node.line, node.expr.map fun _ => (), node.recordedType)

theorem Node.face_rename (ρ : ExprId → ExprId) (node : Node) :
    (node.rename ρ).face = node.face := by
  rw [face, face, rename, Form.map_map]

/-! ### Programs -/

namespace Program

/-- The second program is the first one, with its classes in another order and the features of each
class in another order. -/
structure Reordered (p q : Program) : Prop where
  line : q.line = p.line
  builtins : q.builtins = p.builtins
  exprs : q.exprs = p.exprs
  classes : Class.ReorderedAll p.classes q.classes

/-- The second program is the first one, with its declarations in another order, and with other
handles for its nodes. -/
structure ReorderedUpTo (ρ : ExprId ≃ ExprId) (p q : Program) : Prop where
  line : q.line = p.line
  builtins : q.builtins = p.builtins
  get? : ∀ id, q.exprs.get? (ρ id) = (p.exprs.get? id).map (Node.rename ρ)
  classes : Class.ReorderedAll (p.classes.map (Class.rename ρ)) q.classes

namespace Reordered

variable {p q : Program}

theorem symm (h : p.Reordered q) : q.Reordered p :=
  ⟨h.line.symm, h.builtins.symm, h.exprs.symm, h.classes.symm⟩

/-- The expressions form trees in any order of the declarations. -/
theorem checkForest (h : p.Reordered q) (hforest : p.checkForest = .ok ()) :
    q.checkForest = .ok () := by
  obtain ⟨hclosed, ids, hids, hnodup⟩ := (checkForest_eq_ok_iff id).mp hforest
  have hroots : ((p.classes ++ p.builtins).flatMap Class.roots).Perm
      ((q.classes ++ q.builtins).flatMap Class.roots) := by
    rw [List.flatMap_append, List.flatMap_append, h.builtins]
    exact h.classes.flatMap_roots.append (.refl _)
  obtain ⟨ids', hids', hperm⟩ := hids.of_perm hroots
  refine (checkForest_eq_ok_iff id).mpr ⟨h.exprs ▸ hclosed, ids', ?_, hperm.nodup_iff.mpr hnodup⟩
  rwa [h.exprs]

end Reordered

end Program

end Lcpl
