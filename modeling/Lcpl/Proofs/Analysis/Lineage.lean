import Mathlib.Data.List.Chain
import Lcpl.Proofs.Analysis.Table
import Lcpl.Proofs.Registry.Cycles

/-!
# The tree below `Object`

Once the classes of a program are registered, linked to their parents and free of cycles, being a
strict ancestor is the order of a tree with `Object` at the top. The parents may be declared before
or after their children, and the ancestors are found by a walk whose steps are bounded: without
cycles the bound is never met, since each step leads to a class that was not passed before.

## Main definitions

* `Registry.TreeOrder` — the classes form a tree below `Object`, and the ancestors are its branches

## Main results

* `Registry.chain_eq_ancestors`, `Registry.getLast?_ancestors` — the walk runs to its end, and ends
  in `Object`
* `Registry.Rooted.treeOrder` — what makes a registry a tree
* `Hierarchy.treeOrder_of_checkCycles` — the hierarchy of a program is a tree
-/

namespace Lcpl

namespace Registry

variable {registry : Registry} {id : ClassId}

/-! ### The walk up the parents -/

/-- Each class on the walk is followed by its parent. -/
theorem isChain_cons_chain (registry : Registry) (steps : Nat) (id : ClassId) :
    (id :: registry.chain steps (registry.parent? id)).IsChain registry.ParentOf := by
  induction steps generalizing id with
  | zero => exact .singleton id
  | succ steps ih =>
    cases hparent : registry.parent? id with
    | none => exact .singleton id
    | some parent => exact .cons_cons hparent (ih parent)

section Acyclic

variable (hacyclic : ∀ id, ¬ registry.Descends id id)
include hacyclic

/-- More steps would not find more ancestors. -/
theorem chain_eq_ancestors {steps : Nat} (hle : registry.size ≤ steps) (id : ClassId) :
    registry.chain steps (registry.parent? id) = registry.ancestors id := by
  apply List.ext_getElem?
  intro k
  rw [getElem?_chain, getElem?_ancestors]
  by_cases hk : k < registry.size
  · rw [if_pos hk, if_pos (Nat.lt_of_lt_of_le hk hle)]
    rfl
  · rw [if_neg hk]
    split
    · exact walk?_eq_none_of_size_le hacyclic (Nat.le_of_not_lt hk)
    · rfl

/-- The ancestor at a place of the list stands that many steps above the parent. -/
theorem getElem?_ancestors_eq_walk? (id : ClassId) (k : Nat) :
    (registry.ancestors id)[k]? = registry.walk? (k + 1) id := by
  rw [getElem?_ancestors]
  split
  · rfl
  · exact (walk?_eq_none_of_size_le hacyclic (Nat.le_of_not_lt ‹_›)).symm

theorem nodup_ancestors (id : ClassId) : (registry.ancestors id).Nodup := by
  rw [List.nodup_iff_getElem?_ne_getElem?]
  intro i j hij hj hsame
  rw [getElem?_ancestors_eq_walk? hacyclic, getElem?_ancestors_eq_walk? hacyclic] at hsame
  obtain ⟨far, hfar⟩ : ∃ far, registry.walk? (j + 1) id = some far := by
    rw [← getElem?_ancestors_eq_walk? hacyclic]
    exact ⟨_, List.getElem?_eq_getElem hj⟩
  -- the walk from one place to the other would be a cycle
  obtain ⟨k, rfl⟩ := Nat.exists_eq_add_of_lt hij
  have hback : registry.walk? (k + 1) far = some far := by
    have hsplit : registry.walk? (i + 1 + (k + 1)) id =
        (registry.walk? (i + 1) id).bind (registry.walk? (k + 1)) := walk?_add ..
    rwa [hsame, hfar, Option.bind_some, show i + 1 + (k + 1) = i + k + 1 + 1 by omega, hfar,
      eq_comm] at hsplit
  exact hacyclic far (descends_iff_exists_walk?.mpr ⟨k, hback⟩)

/-- The last ancestor is the one that has no parent. -/
theorem getLast?_ancestors {top : ClassId} (htop : registry.parent? top = none)
    (h : registry.Descends id top) : (registry.ancestors id).getLast? = some top := by
  obtain ⟨n, hn⟩ := descends_iff_exists_walk?.mp h
  have hat : (registry.ancestors id)[n]? = some top := by
    rw [getElem?_ancestors_eq_walk? hacyclic, hn]
  have hbeyond : (registry.ancestors id)[n + 1]? = none := by
    rw [getElem?_ancestors_eq_walk? hacyclic, walk?_succ_eq hn, htop]
  have hlength : (registry.ancestors id).length = n + 1 :=
    Nat.le_antisymm (List.getElem?_eq_none_iff.mp hbeyond) (List.getElem?_eq_some_iff.mp hat).1
  rw [List.getLast?_eq_getElem?, hlength]
  exact hat

end Acyclic

/-! ### Trees -/

/-- The classes form a tree with `Object` at the top and nothing below `String`. Being a strict
ancestor is the order of the tree, and the ancestors of a class are the branch above it. -/
structure TreeOrder (registry : Registry) : Prop where
  irrefl : ∀ id, ¬ registry.isStrictAncestor id id
  trans : ∀ id a b, registry.isStrictAncestor a id → registry.isStrictAncestor b a →
    registry.isStrictAncestor b id
  total : ∀ id a b, registry.isStrictAncestor a id → registry.isStrictAncestor b id →
    a = b ∨ registry.isStrictAncestor b a ∨ registry.isStrictAncestor a b
  object : ∀ id, id.index < registry.size → id ≠ .object → registry.isStrictAncestor .object id
  root : ∀ id, id.index < registry.size ∧ registry.parent? id = none ↔ id = .object
  string : ∀ id, ¬ registry.isStrictAncestor .string id
  /-- The ancestors are all classes that are reached through parents, without repetition. -/
  mem_ancestors : ∀ id ancestor, ancestor ∈ registry.ancestors id ↔ registry.Descends id ancestor
  nodup : ∀ id, (registry.ancestors id).Nodup
  /-- The nearest ancestor comes first: the list goes from each class to its parent. -/
  nearest : ∀ id, (id :: registry.ancestors id).IsChain registry.ParentOf
  last : ∀ id, id.index < registry.size → id ≠ .object →
    (registry.ancestors id).getLast? = some .object
  /-- A walk with more steps would list the same classes. -/
  uncut : ∀ id steps, registry.size ≤ steps →
    registry.chain steps (registry.parent? id) = registry.ancestors id

/-- A registry without cycles in which all but `Object` has a parent, and that is not `String`, is a
tree. -/
theorem Rooted.treeOrder (hrooted : registry.Rooted) (hacyclic : ∀ id, ¬ registry.Descends id id)
    (hregistered : ClassId.object.index < registry.size)
    (hobject : registry.parent? .object = none) (hstring : ∀ id, ¬ registry.ParentOf id .string) :
    registry.TreeOrder where
  irrefl id := isStrictAncestor_iff.not.mpr (hacyclic id)
  trans id a b ha hb := by
    rw [isStrictAncestor_iff] at ha hb ⊢
    exact ha.trans hb
  total id a b ha hb := by
    rw [isStrictAncestor_iff] at ha hb
    rw [isStrictAncestor_iff, isStrictAncestor_iff]
    exact eq_or_descends ha.to_reflTransGen hb.to_reflTransGen
  object id hlt hid := isStrictAncestor_iff.mpr (hrooted.underObject hacyclic id hlt hid)
  root id := by
    constructor
    · rintro ⟨hlt, hnone⟩
      by_contra hid
      obtain ⟨parent, hparent, -⟩ := hrooted id hlt hid
      cases hnone.symm.trans hparent
    · rintro rfl
      exact ⟨hregistered, hobject⟩
  string id := by
    rw [isStrictAncestor_iff]
    intro h
    -- the last step of the way up is a parent
    obtain ⟨child, -, hparent⟩ := Relation.TransGen.tail'_iff.mp h
    exact hstring child hparent
  mem_ancestors _ _ := mem_ancestors_iff
  nodup := nodup_ancestors hacyclic
  nearest := registry.isChain_cons_chain registry.size
  last id hlt hid := getLast?_ancestors hacyclic hobject (hrooted.underObject hacyclic id hlt hid)
  uncut id _ hle := chain_eq_ancestors hacyclic hle id

end Registry

/-! ### The hierarchy of a program -/

namespace Hierarchy

variable {classes : List Class} {log : Array Event} {s t : Resolving}

/-- When classes have been registered beside the built-in ones, linked to their parents and found to
be without cycles, they form a tree below `Object`. -/
theorem treeOrder_of_checkCycles
    (hregister : (register classes).runFrom ⟨.builtin, log⟩ = (.ok (), s))
    (hlink : linkParents.runFrom s = (.ok (), t)) (hcycles : t.registry.checkCycles = .ok ()) :
    t.registry.TreeOrder := by
  have hbuild : (build classes).runFrom ⟨.builtin, log⟩ = (.ok (), t) := by
    rw [build, Step.runFrom_bind_of_ok hregister]
    exact hlink
  obtain ⟨⟨-, -, hlinked⟩, rfl⟩ := (runFrom_build_eq_ok_iff log t rfl).mp hbuild
  apply (Registry.rooted_listing (fun _ _ => rfl) hlinked).treeOrder
  · exact Registry.checkCycles_eq_ok_iff.mp hcycles
  · rw [Registry.size_listing]
    exact Nat.lt_add_right _ (by decide)
  · exact Registry.parent?_listing_object
  · exact Registry.not_parentOf_string_listing (fun _ _ => rfl) hlinked

/-- Children that are declared before their parents, and a class that asks for `Object` by name. -/
def reversed : List Class := [
  { line := 1, name := "Leaf", parent := some "Branch", recordedParent := none, features := [] },
  { line := 2, name := "Twig", parent := some "Branch", recordedParent := none, features := [] },
  { line := 3, name := "Branch", parent := some "Trunk", recordedParent := none, features := [] },
  { line := 4, name := "Trunk", parent := some "Object", recordedParent := none, features := [] }]

/-- The leaf stands below the branch, the branch below the trunk, and all below `Object`. -/
theorem treeOrder_of_checkCycles_reversed :
    ∃ s t, (register reversed).runFrom ⟨.builtin, #[]⟩ = (.ok (), s) ∧
      linkParents.runFrom s = (.ok (), t) ∧ t.registry.checkCycles = .ok () ∧
      t.registry.ancestors ⟨3⟩ = [⟨5⟩, ⟨6⟩, .object] ∧ t.registry.TreeOrder := by
  have hregister := Step.runFrom_eq_of_fst
    (by decide +kernel : ((register reversed).runFrom ⟨.builtin, #[]⟩).1 = .ok ())
  have hlink := Step.runFrom_eq_of_fst
    (by decide +kernel :
      (linkParents.runFrom ((register reversed).runFrom ⟨.builtin, #[]⟩).2).1 = .ok ())
  have hcycles : (linkParents.runFrom
      ((register reversed).runFrom ⟨.builtin, #[]⟩).2).2.registry.checkCycles = .ok () := by
    decide +kernel
  exact ⟨_, _, hregister, hlink, hcycles, by decide +kernel,
    treeOrder_of_checkCycles hregister hlink hcycles⟩

end Hierarchy

end Lcpl
