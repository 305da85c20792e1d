import Lcpl.Tree.Forest
import Lcpl.Proofs.Arena.Reads

/-!
# Forests

The references between expressions pass their check exactly if every slot of a node leads to a node,
every root reads as a term, and no two nodes of these terms are one.

## Main definitions

* `Arena.Closed` — the slots of nodes lead to nodes
* `Arena.Readable` — a handle reads as some term

## Main results

* `Arena.Reads.exists_of_parts` — a node reads as a term if its parts do
* `Arena.exists_reads_of_revisited?` — a walk that meets no node twice reads a term at every slot
* `Arena.revisited?_eq_none` — where every slot reads as a term of its own, a walk meets no node
  twice
* `Program.checkForest_eq_ok_iff` — what the check of the references decides
-/

namespace Lcpl

variable {ι : Type}

namespace Arena

variable {a : Arena} {mark : ExprId → ι} {id : ExprId} {ids : List ExprId}

/-- Every slot of a node leads to a node. -/
def Closed (a : Arena) : Prop :=
  ∀ x node, a.get? x = some node → ∀ child ∈ node.expr.children, a.contains child

theorem closed_iff_childSlots :
    a.Closed ↔ ∀ x, ∀ slot ∈ a.childSlots x, a.contains slot.child := by
  constructor
  · intro h x slot hslot
    cases hget : a.get? x with
    | none => simp [childSlots, hget] at hslot
    | some node =>
      rw [childSlots, hget] at hslot
      obtain ⟨child, hchild, rfl⟩ := List.mem_map.mp hslot
      exact h x node hget child hchild
  · intro h x node hget child hchild
    apply h x ⟨.node x, child⟩
    rw [childSlots, hget]
    exact List.mem_map_of_mem hchild

/-- The handle reads as some term. -/
def Readable (a : Arena) (mark : ExprId → ι) (id : ExprId) (ids : List ExprId) : Prop :=
  ∃ t, a.Reads mark id t ids

theorem exists_readsAll {handles : List ExprId} (h : Jointly (a.Readable mark) handles ids) :
    ∃ parts : List (ExprId × Term ι), parts.map Prod.fst = handles ∧ a.ReadsAll mark parts ids := by
  induction h with
  | nil => exact ⟨[], rfl, .nil⟩
  | @cons handle handles own rest head tail ih =>
    obtain ⟨t, ht⟩ := head
    obtain ⟨parts, rfl, hparts⟩ := ih
    exact ⟨(handle, t) :: parts, rfl, .cons (x := (handle, t)) ht hparts⟩

/-- A node reads as a term if its parts do. -/
theorem Reads.exists_of_parts {node : Node} (hget : a.get? id = some node)
    (hparts : Jointly (a.Readable mark) node.expr.children ids) :
    a.Readable mark id (id :: ids) := by
  obtain ⟨parts, hhandles, hreads⟩ := exists_readsAll hparts
  obtain ⟨line, expr, type⟩ := node
  have : Nonempty (ExprId × Term ι) := ⟨id, .node (mark id) line .voidConstant type⟩
  obtain ⟨form, rfl, hchildren⟩ := Form.exists_of_children hhandles
  exact ⟨_, .node form hget (hchildren ▸ hreads)⟩

/-- A walk that meets no node twice reads a term at every slot. -/
theorem exists_reads_of_revisited? (mark : ExprId → ι)
    (hclosed : a.Closed) {unseen : Nat} {seen : List ExprId}
    {slots : List Slot} (h : a.revisited? unseen seen slots = none)
    (hslots : ∀ slot ∈ slots, a.contains slot.child) :
    ∃ ids, Jointly (fun slot : Slot => a.Readable mark slot.child) slots ids ∧ ids.Nodup ∧
      ∀ x ∈ ids, x ∉ seen := by
  induction unseen generalizing seen slots with
  | zero =>
    cases slots with
    | nil => exact ⟨[], .nil, .nil, by simp⟩
    | cons slot slots => simp [revisited?] at h
  | succ unseen ih =>
    cases slots with
    | nil => exact ⟨[], .nil, .nil, by simp⟩
    | cons slot slots =>
      rw [revisited?] at h
      split at h
      · cases h
      · next hnew =>
        -- the rest of the walk reads the slots of the node, last one first, and then those pending
        obtain ⟨ids, hids, hnodup, hunseen⟩ := ih h fun other hother => by
          rcases List.mem_append.mp hother with hother | hother
          · exact closed_iff_childSlots.mp hclosed slot.child other (List.mem_reverse.mp hother)
          · exact hslots other (List.mem_cons_of_mem _ hother)
        obtain ⟨node, hget⟩ := contains_iff_exists_get?.mp (hslots slot List.mem_cons_self)
        obtain ⟨own, rest, rfl, hown, hrest⟩ := Jointly.append_iff.mp hids
        obtain ⟨own', hown', hperm⟩ := hown.of_perm (List.reverse_perm _)
        have hroot : a.Readable mark slot.child (slot.child :: own') := by
          refine Reads.exists_of_parts hget ?_
          rw [childSlots, hget] at hown'
          dsimp only at hown'
          rwa [Jointly.map_iff] at hown'
        have hperm : (slot.child :: own' ++ rest).Perm (slot.child :: (own ++ rest)) :=
          (hperm.append_right rest).cons slot.child
        -- the node itself has been seen, so the rest of the walk does not meet it
        have hfresh : slot.child ∉ own ++ rest := fun hmem =>
          hunseen slot.child hmem List.mem_cons_self
        refine ⟨slot.child :: own' ++ rest, .cons hroot hrest,
          hperm.nodup_iff.mpr (List.nodup_cons.mpr ⟨hfresh, hnodup⟩), fun x hx => ?_⟩
        rcases List.mem_cons.mp (hperm.mem_iff.mp hx) with rfl | hx
        · exact hnew
        · exact fun hseen => hunseen x hx (List.mem_cons_of_mem _ hseen)

/-- The slots of a node that reads as a term read as its parts. -/
theorem Reads.exists_childSlots {t : Term ι} (h : a.Reads mark id t ids) :
    ∃ own, ids = id :: own ∧
      Jointly (fun slot : Slot => a.Readable mark slot.child) (a.childSlots id) own := by
  cases h with
  | @node id line type own form hget hparts =>
    refine ⟨own, rfl, ?_⟩
    rw [childSlots, hget]
    dsimp only
    rw [Jointly.map_iff, Form.children_map, Jointly.map_iff]
    exact hparts.mono fun part _ _ _ hread => ⟨part.2, hread⟩

/-- Where every slot reads as a term of its own, a walk meets no node twice. -/
theorem revisited?_eq_none {unseen : Nat} {seen : List ExprId} {slots : List Slot}
    (h : Jointly (fun slot : Slot => a.Readable mark slot.child) slots ids) (hnodup : ids.Nodup)
    (hseen : ∀ x ∈ ids, x ∉ seen) (hle : ids.length ≤ unseen) :
    a.revisited? unseen seen slots = none := by
  -- the walk replaces the first slot by those of its node, so the terms lose one node
  induction unseen generalizing seen slots ids with
  | zero =>
    cases slots with
    | nil => rfl
    | cons slot slots =>
      obtain ⟨own, rest, rfl, ⟨t, hread⟩, -⟩ := Jointly.cons_iff.mp h
      have hpos := List.length_pos_of_mem (List.mem_append_left rest hread.mem_self)
      omega
  | succ unseen ih =>
    cases slots with
    | nil => rfl
    | cons slot slots =>
      obtain ⟨own, rest, rfl, ⟨t, hread⟩, hrest⟩ := Jointly.cons_iff.mp h
      obtain ⟨below, rfl, hbelow⟩ := hread.exists_childSlots
      obtain ⟨below', hbelow', hperm⟩ := hbelow.of_perm (List.reverse_perm _).symm
      have hall : (slot.child :: (below' ++ rest)).Perm (slot.child :: below ++ rest) :=
        (hperm.append_right rest).cons slot.child
      obtain ⟨hfresh, hnodup'⟩ := List.nodup_cons.mp (hall.nodup_iff.mpr hnodup)
      rw [revisited?, if_neg (hseen slot.child (by simp))]
      apply ih (Jointly.append_iff.mpr ⟨below', rest, rfl, hbelow', hrest⟩) hnodup'
      · intro x hx hmem
        rcases List.mem_cons.mp hmem with rfl | hmem
        · exact hfresh hx
        · exact hseen x (hall.mem_iff.mp (List.mem_cons_of_mem _ hx)) hmem
      · have hlength := hall.length_eq
        rw [List.length_cons] at hlength
        omega

end Arena

namespace Class

/-- The roots of a class, in declaration order. -/
def roots (c : Class) : List ExprId := c.features.filterMap Feature.root

theorem map_child_rootSlots (c : Class) : c.rootSlots.map Slot.child = c.roots := by
  rw [rootSlots, roots, List.map_filterMap]
  congr 1
  funext feature
  cases feature.root <;> rfl

end Class

namespace Program

variable {p : Program}

/-- The roots of a program, those of its own classes first. -/
theorem map_child_rootSlots (p : Program) :
    p.rootSlots.map Slot.child = (p.classes ++ p.builtins).flatMap Class.roots := by
  rw [rootSlots, List.map_flatMap]
  exact List.flatMap_congr fun c _ => c.map_child_rootSlots

/-- Every slot leads to a node if the slots of nodes and the roots do. -/
theorem forall_slots_iff : (∀ slot ∈ p.slots, p.exprs.contains slot.child) ↔
    (∀ slot ∈ p.rootSlots, p.exprs.contains slot.child) ∧ p.exprs.Closed := by
  rw [slots, List.forall_mem_append, Arena.closed_iff_childSlots]
  refine and_congr_right fun _ => ?_
  constructor
  · intro h x slot hslot
    refine h slot (List.mem_flatMap.mpr ⟨x, ?_, hslot⟩)
    cases hget : p.exprs.get? x with
    | none => simp [Arena.childSlots, hget] at hslot
    | some node => exact Arena.mem_ids.mpr (Arena.lt_of_get? hget)
  · intro h slot hslot
    obtain ⟨x, -, hslot⟩ := List.mem_flatMap.mp hslot
    exact h x slot hslot

/-- What the check of the references decides: the slots of nodes lead to nodes, and the roots read
as terms, apart from each other. -/
theorem checkForest_eq_ok_iff (mark : ExprId → ι) :
    p.checkForest = .ok () ↔ p.exprs.Closed ∧
      ∃ ids, Jointly (p.exprs.Readable mark) ((p.classes ++ p.builtins).flatMap Class.roots) ids ∧
        ids.Nodup := by
  rw [← map_child_rootSlots]
  constructor
  · intro h
    unfold checkForest at h
    split at h
    · cases h
    · next hfind =>
      obtain ⟨hroots, hclosed⟩ := forall_slots_iff.mp (by simpa using hfind)
      split at h
      · cases h
      · next hwalk =>
        obtain ⟨ids, hids, hnodup, -⟩ := Arena.exists_reads_of_revisited? mark hclosed hwalk
          fun slot hslot => hroots slot (List.mem_reverse.mp hslot)
        obtain ⟨ids', hids', hperm⟩ := hids.of_perm (List.reverse_perm _)
        exact ⟨hclosed, ids', Jointly.map_iff.mpr hids', hperm.nodup_iff.mpr hnodup⟩
  · rintro ⟨hclosed, ids, hids, hnodup⟩
    rw [Jointly.map_iff] at hids
    have hroots : ∀ slot ∈ p.rootSlots, p.exprs.contains slot.child := by
      intro slot hslot
      obtain ⟨own, ⟨t, hread⟩, -⟩ := hids.exists_of_mem hslot
      exact Arena.contains_iff.mpr (hread.lt_size _ hread.mem_self)
    have hfind : p.slots.find? (fun slot => !p.exprs.contains slot.child) = none := by
      simpa using forall_slots_iff.mpr ⟨hroots, hclosed⟩
    -- the walk takes the last root first
    obtain ⟨ids', hids', hperm⟩ := hids.of_perm (List.reverse_perm _).symm
    have hnodup' := hperm.nodup_iff.mpr hnodup
    have hlt : ∀ x ∈ ids', x.index < p.exprs.size :=
      hids'.forall_mem fun _ _ _ ⟨_, hread⟩ => hread.lt_size
    have hwalk := Arena.revisited?_eq_none hids' hnodup' (fun _ _ => List.not_mem_nil)
      (Arena.length_le_size hnodup' hlt)
    rw [checkForest, hfind]
    dsimp only
    rw [hwalk]

/-- The roots of the classes of a program read as terms, apart from each other. -/
theorem exists_reads_of_checkForest (mark : ExprId → ι) (h : p.checkForest = .ok ()) :
    ∃ ids, Jointly (p.exprs.Readable mark) (p.classes.flatMap Class.roots) ids ∧ ids.Nodup := by
  obtain ⟨-, ids, hids, hnodup⟩ := (checkForest_eq_ok_iff mark).mp h
  rw [List.flatMap_append] at hids
  obtain ⟨own, rest, rfl, hown, -⟩ := Jointly.append_iff.mp hids
  exact ⟨own, hown, (List.nodup_append.mp hnodup).1⟩

end Program

end Lcpl
