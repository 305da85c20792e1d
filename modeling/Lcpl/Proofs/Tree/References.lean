import Mathlib.Data.List.Flatten
import Mathlib.Data.List.Perm.Subperm
import Lcpl.Proofs.Arena.Reachable
import Lcpl.Proofs.Tree.Forest

/-!
# What the check of the references decides

The slots that count are the root slots and the slots of the nodes reached from them. The walk takes
slots off a stack and puts those of their nodes on it, so at any time the slots taken and the slots
pending are the root slots and the slots of the nodes seen. If the stack runs empty, the nodes seen
are the nodes reached; if a slot leads to a node seen, it and the slot taken for that node are two
of the slots that count. Neither needs the nodes to form trees: the arena may have any shape.

## Main definitions

* `Program.Reached`, `Program.reachedSlots` — the nodes reached from the roots, and the slots that
  count
* `Program.Walk` — what holds each time round the walk

## Main results

* `Program.exists_walk_of_revisited?_eq_none`, `Program.exists_walk_of_revisited?_eq_some` — how the
  walk ends
* `Program.checkForest_decides` — the outcome of the check, on every program
-/

namespace Lcpl

namespace Arena

variable {a : Arena} {id : ExprId} {slot : Slot}

theorem nodup_ids (a : Arena) : a.ids.Nodup := by
  apply List.nodup_range.map
  intro m n h
  exact ExprId.mk.inj h

theorem exists_get?_of_mem_childSlots (h : slot ∈ a.childSlots id) :
    ∃ node, a.get? id = some node ∧ slot.child ∈ node.expr.children := by
  cases hget : a.get? id with
  | none => simp [childSlots, hget] at h
  | some node =>
    rw [childSlots, hget] at h
    obtain ⟨child, hchild, rfl⟩ := List.mem_map.mp h
    exact ⟨node, rfl, hchild⟩

end Arena

namespace Program

variable {p : Program} {slot : Slot} {id : ExprId}

/-- The node is below a root. -/
def Reached (p : Program) (id : ExprId) : Prop :=
  ∃ slot ∈ p.rootSlots, p.exprs.Below slot.child id

open Classical in
/-- The root slots, and the slots of the nodes reached from them. -/
noncomputable def reachedSlots (p : Program) : List Slot :=
  p.rootSlots ++ (p.exprs.ids.filter fun id => p.Reached id).flatMap p.exprs.childSlots

/-- The slot is one of two slots that count and hold the same handle. -/
def Shares (p : Program) (slot : Slot) : Prop :=
  ∃ other, [slot, other].Subperm p.reachedSlots ∧ other.child = slot.child

/-- The slot leads to no node, and every slot before it leads to one. -/
def FirstDangling (p : Program) (slot : Slot) : Prop :=
  ∃ before after, p.slots = before ++ slot :: after ∧
    (∀ earlier ∈ before, p.exprs.contains earlier.child) ∧ ¬ p.exprs.contains slot.child

/-- Every slot leads to a node. -/
def Inside (p : Program) : Prop := ∀ slot ∈ p.slots, p.exprs.contains slot.child

theorem reached_of_mem_rootSlots (h : slot ∈ p.rootSlots) : p.Reached slot.child :=
  ⟨slot, h, .root⟩

theorem Reached.child (h : p.Reached id) (hslot : slot ∈ p.exprs.childSlots id) :
    p.Reached slot.child := by
  obtain ⟨root, hroot, hbelow⟩ := h
  obtain ⟨node, hget, hchild⟩ := Arena.exists_get?_of_mem_childSlots hslot
  exact ⟨root, hroot, .part hbelow hget hchild⟩

/-! ### The walk -/

/-- What holds each time round the walk: the slots taken lead to the nodes seen, each reached and
seen once, and together with the pending slots they are the root slots and the slots of the nodes
seen. -/
structure Walk (p : Program) (unseen : Nat) (seen : List ExprId) (taken pending : List Slot) :
    Prop where
  seen_eq : seen = taken.map Slot.child
  perm : (p.rootSlots ++ seen.flatMap p.exprs.childSlots).Perm (taken ++ pending)
  nodup : seen.Nodup
  reached : ∀ id ∈ seen, p.Reached id
  lt_size : ∀ id ∈ seen, id.index < p.exprs.size
  count : unseen + seen.length = p.exprs.size

namespace Walk

variable {unseen : Nat} {seen : List ExprId} {taken pending : List Slot}

theorem init (p : Program) : p.Walk p.exprs.size [] [] p.rootSlots.reverse where
  seen_eq := rfl
  perm := by simp [(List.reverse_perm _).symm]
  nodup := .nil
  reached := by simp
  lt_size := by simp
  count := by simp

theorem reached_of_mem (h : p.Walk unseen seen taken pending) (hslot : slot ∈ taken ++ pending) :
    p.Reached slot.child := by
  rcases List.mem_append.mp (h.perm.mem_iff.mpr hslot) with hroot | hchild
  · exact reached_of_mem_rootSlots hroot
  · obtain ⟨id, hid, hchild⟩ := List.mem_flatMap.mp hchild
    exact (h.reached id hid).child hchild

theorem contains_of_mem (h : p.Walk unseen seen taken pending) (hinside : p.Inside)
    (hslot : slot ∈ taken ++ pending) : slot.child.index < p.exprs.size := by
  obtain ⟨hroots, hclosed⟩ := forall_slots_iff.mp hinside
  apply Arena.contains_iff.mp
  rcases List.mem_append.mp (h.perm.mem_iff.mpr hslot) with hroot | hchild
  · exact hroots slot hroot
  · obtain ⟨id, -, hchild⟩ := List.mem_flatMap.mp hchild
    exact Arena.closed_iff_childSlots.mp hclosed id slot hchild

open scoped List in
/-- A pending slot that leads to a new node is taken, and the slots of the node are pending. -/
theorem step (h : p.Walk (unseen + 1) seen taken (slot :: pending)) (hinside : p.Inside)
    (hnew : slot.child ∉ seen) :
    p.Walk unseen (slot.child :: seen) (slot :: taken)
      ((p.exprs.childSlots slot.child).reverse ++ pending) where
  seen_eq := by rw [List.map_cons, h.seen_eq]
  perm := by
    have hpast := h.perm.append_left (p.exprs.childSlots slot.child)
    calc
      p.rootSlots ++ (slot.child :: seen).flatMap p.exprs.childSlots
      _ = p.rootSlots ++ (p.exprs.childSlots slot.child ++ seen.flatMap p.exprs.childSlots) := by
        rw [List.flatMap_cons]
      _ ~ p.exprs.childSlots slot.child ++ (p.rootSlots ++ seen.flatMap p.exprs.childSlots) :=
        List.perm_append_comm_assoc ..
      _ ~ p.exprs.childSlots slot.child ++ (taken ++ slot :: pending) := hpast
      _ ~ (slot :: taken) ++ ((p.exprs.childSlots slot.child).reverse ++ pending) := by
        rw [List.perm_iff_count]
        intro other
        simp only [List.count_append, List.count_cons, List.count_reverse]
        omega
  nodup := List.nodup_cons.mpr ⟨hnew, h.nodup⟩
  reached := List.forall_mem_cons.mpr ⟨h.reached_of_mem (by simp), h.reached⟩
  lt_size := List.forall_mem_cons.mpr ⟨h.contains_of_mem hinside (by simp), h.lt_size⟩
  count := by
    have := h.count
    rw [List.length_cons]
    omega

/-- Once every node is seen, whatever is pending leads to a node seen. -/
theorem mem_seen_of_zero (h : p.Walk 0 seen taken pending) (hinside : p.Inside)
    (hslot : slot ∈ pending) : slot.child ∈ seen := by
  have hlt := h.contains_of_mem hinside (List.mem_append_right taken hslot)
  by_contra hnew
  -- one more node than the arena has
  have hlength := Arena.length_le_size (List.nodup_cons.mpr ⟨hnew, h.nodup⟩)
    (List.forall_mem_cons.mpr ⟨hlt, h.lt_size⟩)
  have := h.count
  rw [List.length_cons] at hlength
  omega

open Classical in
/-- The nodes seen are among the nodes reached. -/
theorem subperm_filter (h : p.Walk unseen seen taken pending) :
    seen.Subperm (p.exprs.ids.filter fun id => p.Reached id) := by
  apply List.subperm_of_subset h.nodup
  intro id hid
  rw [List.mem_filter, Arena.mem_ids, decide_eq_true_iff]
  exact ⟨h.lt_size id hid, h.reached id hid⟩

/-- The slots taken and the slots pending are among those that count. -/
theorem subperm_reachedSlots (h : p.Walk unseen seen taken pending) :
    (taken ++ pending).Subperm p.reachedSlots := by
  obtain ⟨seen', hperm, hsub⟩ := h.subperm_filter
  refine h.perm.symm.subperm.trans ?_
  rw [reachedSlots, List.subperm_append_left]
  exact (hperm.flatMap_right _).symm.subperm.trans (hsub.flatMap _).subperm

/-- A node reached is seen by the time nothing is pending. -/
theorem mem_seen_of_reached (h : p.Walk unseen seen taken []) (hid : p.Reached id) :
    id ∈ seen := by
  have hmem : ∀ slot ∈ p.rootSlots ++ seen.flatMap p.exprs.childSlots, slot.child ∈ seen := by
    intro slot hslot
    rw [h.seen_eq]
    apply List.mem_map_of_mem
    simpa using h.perm.mem_iff.mp hslot
  obtain ⟨root, hroot, hbelow⟩ := hid
  induction hbelow with
  | root => exact hmem root (List.mem_append_left _ hroot)
  | @part id node child _ hget hchild ih =>
    refine hmem ⟨.node id, child⟩ (List.mem_append_right _ (List.mem_flatMap.mpr ⟨id, ih, ?_⟩))
    rw [Arena.childSlots, hget]
    exact List.mem_map_of_mem hchild

/-- When nothing is pending, the slots taken are those that count. -/
theorem perm_reachedSlots (h : p.Walk unseen seen taken []) : taken.Perm p.reachedSlots := by
  classical
  have hseen : seen.Perm (p.exprs.ids.filter fun id => p.Reached id) := by
    apply h.subperm_filter.antisymm
    apply List.subperm_of_subset (p.exprs.nodup_ids.filter _)
    intro id hid
    exact h.mem_seen_of_reached (by simpa using (List.mem_filter.mp hid).2)
  have hperm := h.perm
  rw [List.append_nil] at hperm
  exact hperm.symm.trans ((hseen.flatMap_right _).append_left _)

/-- A slot that leads to a node seen, and the slot taken for that node, are two of those that
count. -/
theorem shares_of_mem_seen (h : p.Walk unseen seen taken (slot :: pending))
    (hseen : slot.child ∈ seen) : p.Shares slot := by
  rw [h.seen_eq] at hseen
  obtain ⟨other, hother, heq⟩ := List.mem_map.mp hseen
  refine ⟨other, List.Subperm.trans ?_ h.subperm_reachedSlots, heq⟩
  obtain ⟨front, back, rfl⟩ := List.append_of_mem hother
  rw [List.subperm_ext_iff]
  intro x _
  simp only [List.count_append, List.count_cons, List.count_nil]
  omega

end Walk

/-- A walk that returns nothing ends with nothing pending. -/
theorem exists_walk_of_revisited?_eq_none {unseen : Nat} {seen : List ExprId}
    {taken pending : List Slot} (h : p.Walk unseen seen taken pending) (hinside : p.Inside)
    (hwalk : p.exprs.revisited? unseen seen pending = none) :
    ∃ unseen seen taken, p.Walk unseen seen taken [] := by
  induction unseen generalizing seen taken pending with
  | zero =>
    cases pending with
    | nil => exact ⟨0, seen, taken, h⟩
    | cons slot pending => simp [Arena.revisited?] at hwalk
  | succ unseen ih =>
    cases pending with
    | nil => exact ⟨unseen + 1, seen, taken, h⟩
    | cons slot pending =>
      rw [Arena.revisited?] at hwalk
      by_cases hseen : slot.child ∈ seen
      · simp [hseen] at hwalk
      · rw [if_neg hseen] at hwalk
        exact ih (h.step hinside hseen) hwalk

/-- A walk that returns a slot ends where that slot leads to a node seen. -/
theorem exists_walk_of_revisited?_eq_some {unseen : Nat} {seen : List ExprId}
    {taken pending : List Slot} (h : p.Walk unseen seen taken pending) (hinside : p.Inside)
    (hwalk : p.exprs.revisited? unseen seen pending = some slot) :
    ∃ unseen seen taken pending, p.Walk unseen seen taken (slot :: pending) ∧
      slot.child ∈ seen := by
  induction unseen generalizing seen taken pending with
  | zero =>
    cases pending with
    | nil => simp [Arena.revisited?] at hwalk
    | cons first pending =>
      -- every node has been seen, so any slot that is left leads back
      obtain rfl : first = slot := by simpa [Arena.revisited?] using hwalk
      exact ⟨0, seen, taken, pending, h, h.mem_seen_of_zero hinside List.mem_cons_self⟩
  | succ unseen ih =>
    cases pending with
    | nil => simp [Arena.revisited?] at hwalk
    | cons first pending =>
      rw [Arena.revisited?] at hwalk
      by_cases hseen : first.child ∈ seen
      · obtain rfl : first = slot := by simpa [hseen] using hwalk
        exact ⟨unseen + 1, seen, taken, pending, h, hseen⟩
      · rw [if_neg hseen] at hwalk
        exact ih (h.step hinside hseen) hwalk

/-! ### The check -/

theorem Shares.not_nodup (h : p.Shares slot) : ¬ (p.reachedSlots.map Slot.child).Nodup := by
  obtain ⟨other, hsub, heq⟩ := h
  intro hnodup
  obtain ⟨pair, hperm, hsub⟩ := hsub
  have := (hperm.map Slot.child).nodup_iff.mp (hnodup.sublist (hsub.map Slot.child))
  simp [heq] at this

theorem nodup_of_revisited?_eq_none (hinside : p.Inside)
    (h : p.exprs.revisited? p.exprs.size [] p.rootSlots.reverse = none) :
    (p.reachedSlots.map Slot.child).Nodup := by
  obtain ⟨unseen, seen, taken, hwalk⟩ := exists_walk_of_revisited?_eq_none (.init p) hinside h
  have hnodup := hwalk.nodup
  rw [hwalk.seen_eq] at hnodup
  exact (hwalk.perm_reachedSlots.map Slot.child).nodup_iff.mp hnodup

theorem shares_of_revisited?_eq_some (hinside : p.Inside)
    (h : p.exprs.revisited? p.exprs.size [] p.rootSlots.reverse = some slot) : p.Shares slot := by
  obtain ⟨unseen, seen, taken, pending, hwalk, hseen⟩ :=
    exists_walk_of_revisited?_eq_some (.init p) hinside h
  exact hwalk.shares_of_mem_seen hseen

theorem find?_slots_eq_some_iff :
    (p.slots.find? fun slot => !p.exprs.contains slot.child) = some slot ↔
      p.FirstDangling slot := by
  rw [List.find?_eq_some_iff_append]
  constructor
  · rintro ⟨houtside, before, after, hslots, hbefore⟩
    exact ⟨before, after, hslots, by simpa using hbefore, by simpa using houtside⟩
  · rintro ⟨before, after, hslots, hbefore, houtside⟩
    exact ⟨by simpa using houtside, before, after, hslots, by simpa using hbefore⟩

theorem checkForest_eq_dangling_iff :
    p.checkForest = .error (.dangling slot) ↔ p.FirstDangling slot := by
  rw [← find?_slots_eq_some_iff, checkForest]
  split
  · next first hfind => simp [hfind]
  · next hfind =>
    rw [hfind]
    split <;> simp

theorem exists_firstDangling_iff : (∃ slot, p.FirstDangling slot) ↔ ¬ p.Inside := by
  simp only [← find?_slots_eq_some_iff]
  rw [← Option.isSome_iff_exists, List.find?_isSome, Inside]
  push Not
  simp

/-- Where every slot leads to a node, the walk decides. -/
theorem checkForest_of_inside (hinside : p.Inside) :
    (∃ slot, p.checkForest = .error (.shared slot) ∧ p.Shares slot) ∨
      (p.checkForest = .ok () ∧ (p.reachedSlots.map Slot.child).Nodup) := by
  have hfind : p.slots.find? (fun slot => !p.exprs.contains slot.child) = none := by
    simpa [Inside] using hinside
  rw [checkForest, hfind]
  cases hwalk : p.exprs.revisited? p.exprs.size [] p.rootSlots.reverse with
  | some slot => exact .inl ⟨slot, rfl, shares_of_revisited?_eq_some hinside hwalk⟩
  | none => exact .inr ⟨rfl, nodup_of_revisited?_eq_none hinside hwalk⟩

/-- The check of the references decides whether every slot leads to a node and no two slots that
count hold the same handle. If some slot leads nowhere, it names the first; otherwise, if some node
is reached twice, it names one of two slots that hold its handle. -/
theorem checkForest_decides (p : Program) :
    (p.checkForest = .ok () ↔ p.Inside ∧ (p.reachedSlots.map Slot.child).Nodup) ∧
    (∀ slot, p.checkForest = .error (.dangling slot) ↔ p.FirstDangling slot) ∧
    ((∃ slot, p.checkForest = .error (.dangling slot)) ↔ ¬ p.Inside) ∧
    ((∃ slot, p.checkForest = .error (.shared slot)) ↔
      p.Inside ∧ ¬ (p.reachedSlots.map Slot.child).Nodup) ∧
    (∀ slot, p.checkForest = .error (.shared slot) → p.Shares slot) := by
  by_cases hinside : p.Inside
  · have hnone : ∀ slot, ¬ p.FirstDangling slot := by
      intro slot hfirst
      exact exists_firstDangling_iff.mp ⟨slot, hfirst⟩ hinside
    rcases checkForest_of_inside hinside with ⟨slot, hcheck, hshares⟩ | ⟨hcheck, hnodup⟩
    · simp [hcheck, hinside, hnone, hshares, hshares.not_nodup]
    · simp [hcheck, hinside, hnone, hnodup]
  · obtain ⟨slot, hfirst⟩ := exists_firstDangling_iff.mpr hinside
    have hcheck := checkForest_eq_dangling_iff.mpr hfirst
    refine ⟨?_, fun _ => checkForest_eq_dangling_iff, ?_⟩
    · simp [hcheck, hinside]
    · simp [hcheck, hinside]

/-- A program whose only node is a part of itself. -/
def loop : Program where
  line := 1
  classes := [
    { line := 1, name := "Main", parent := none, recordedParent := none
      features := [.method (.declared 2 "main" [] "Int" (some ⟨0⟩))] }]
  exprs := ⟨#[⟨3, .unary .minus ⟨0⟩, none⟩]⟩
  builtins := []

/-- The node is held by the method and by itself; the walk comes back to it from itself. -/
theorem checkForest_decides_loop :
    loop.checkForest = .error (.shared ⟨.node ⟨0⟩, ⟨0⟩⟩) ∧ loop.Shares ⟨.node ⟨0⟩, ⟨0⟩⟩ := by
  have hcheck : loop.checkForest = .error (.shared ⟨.node ⟨0⟩, ⟨0⟩⟩) := by decide +kernel
  exact ⟨hcheck, loop.checkForest_decides.2.2.2.2 _ hcheck⟩

end Program

end Lcpl
