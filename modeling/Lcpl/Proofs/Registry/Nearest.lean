import Lcpl.Proofs.Registry.Descent

/-!
# The nearest feature of a name

Features are looked up along a walk that gives up after as many steps as there are classes. The
chain of parents itself has no bound, and on a cycle no end. This module compares the two: what a
look-up finds is what stands at the smallest number of steps in the chain without bound, and a
look-up finds nothing only if there is nothing at any number of steps.

A class far up the chain is met near by as well, since a walk that comes by a class twice can leave
out what lies between. So whatever is nearest is within the bound.

## Main definitions

* `Registry.above?` — what the class a number of steps above has of something
* `Registry.IsNearest` — an answer is what is nearest in the chain, from some step on
* `Registry.Covers` — a list that begins as the chain does, and has all classes of it

## Main results

* `Registry.covers_ancestors` — the bounded walk covers the chain without bound
* `Registry.Covers.isNearest_findSome?` — what a search along such a list finds
* `Registry.ancestry_exact` — ancestry and look-ups are those of the chain without bound
-/

namespace Lcpl.Registry

variable {α : Type} {registry : Registry} {own? : ClassId → Option α} {id : ClassId} {first : Nat}
variable {l : List ClassId}

/-- What the class that stands `n` steps above has by itself; nothing if the chain is shorter. -/
def above? (registry : Registry) (own? : ClassId → Option α) (id : ClassId) (n : Nat) : Option α :=
  (registry.walk? n id).bind own?

theorem above?_of_walk? {n : Nat} {above : ClassId} (h : registry.walk? n id = some above) :
    registry.above? own? id n = own? above := by
  rw [above?, h, Option.bind_some]

/-- The answer is what stands at the smallest number of steps in the chain of parents, counted from
`first` on, and it is missing if and only if nothing stands there at any number of steps. -/
structure IsNearest (registry : Registry) (own? : ClassId → Option α) (id : ClassId) (first : Nat)
    (answer : Option α) : Prop where
  eq_some_iff : ∀ x, answer = some x ↔
    ∃ n, first ≤ n ∧ registry.above? own? id n = some x ∧
      ∀ k, first ≤ k → k < n → registry.above? own? id k = none
  eq_none_iff : answer = none ↔ ∀ n, first ≤ n → registry.above? own? id n = none

/-! ### Searching a part of the chain -/

/-- The list holds the classes of the chain in order, from `first` on, and each class that the chain
meets from there on is among them. -/
structure Covers (registry : Registry) (id : ClassId) (first : Nat) (l : List ClassId) : Prop where
  walk? : ∀ {k above}, l[k]? = some above → registry.walk? (first + k) id = some above
  mem : ∀ {n above}, registry.walk? (first + n) id = some above → above ∈ l

/-- The strict ancestors cover the chain from the first step on. -/
theorem covers_ancestors (registry : Registry) (id : ClassId) :
    registry.Covers id 1 (registry.ancestors id) where
  walk? {k above} h := by
    rw [getElem?_ancestors] at h
    split at h
    · rwa [Nat.add_comm]
    · cases h
  mem {n above} h := by
    rw [Nat.add_comm] at h
    exact mem_ancestors_iff.mpr (descends_iff_exists_walk?.mpr ⟨n, h⟩)

/-- With the class itself in front they cover all of the chain. -/
theorem covers_cons_ancestors (registry : Registry) (id : ClassId) :
    registry.Covers id 0 (id :: registry.ancestors id) where
  walk? {k above} h := by
    rw [Nat.zero_add]
    cases k with
    | zero => exact h
    | succ k =>
      rw [Nat.add_comm]
      exact (registry.covers_ancestors id).walk? h
  mem {n above} h := by
    rw [Nat.zero_add] at h
    cases n with
    | zero => exact List.mem_cons.mpr (.inl (Option.some_inj.mp h).symm)
    | succ n =>
      rw [Nat.add_comm] at h
      exact List.mem_cons_of_mem id ((registry.covers_ancestors id).mem h)

namespace Covers

variable (h : registry.Covers id first l)
include h

theorem findSome?_eq_none_iff :
    l.findSome? own? = none ↔ ∀ n, first ≤ n → registry.above? own? id n = none := by
  rw [List.findSome?_eq_none_iff]
  constructor
  · intro hnone n hn
    obtain ⟨k, rfl⟩ := Nat.exists_eq_add_of_le hn
    cases hwalk : registry.walk? (first + k) id with
    | none => rw [above?, hwalk, Option.bind_none]
    | some above => rw [above?_of_walk? hwalk, hnone above (h.mem hwalk)]
  · intro hnone above habove
    obtain ⟨k, hk⟩ := List.mem_iff_getElem?.mp habove
    have hown : registry.above? own? id (first + k) = own? above := above?_of_walk? (h.walk? hk)
    exact hown.symm.trans (hnone (first + k) (Nat.le_add_right first k))

/-- What is found in the list is nearest in the chain: the classes in front of it in the list are
those at fewer steps. -/
theorem exists_of_findSome? {x : α} (hx : l.findSome? own? = some x) :
    ∃ n, first ≤ n ∧ registry.above? own? id n = some x ∧
      ∀ k, first ≤ k → k < n → registry.above? own? id k = none := by
  obtain ⟨before, above, behind, rfl, habove, hbefore⟩ := List.findSome?_eq_some_iff.mp hx
  refine ⟨first + before.length, Nat.le_add_right .., ?_, fun k hk hlt => ?_⟩
  · have hget : (before ++ above :: behind)[before.length]? = some above := by simp
    rw [above?_of_walk? (h.walk? hget), habove]
  · obtain ⟨j, rfl⟩ := Nat.exists_eq_add_of_le hk
    have hj : j < before.length := Nat.lt_of_add_lt_add_left hlt
    have hget : (before ++ above :: behind)[j]? = some before[j] := by
      rw [List.getElem?_append_left hj, List.getElem?_eq_getElem hj]
    rw [above?_of_walk? (h.walk? hget)]
    exact hbefore _ (List.getElem_mem hj)

/-- A search along the list answers as a search along the whole chain would. -/
theorem isNearest_findSome? (own? : ClassId → Option α) :
    registry.IsNearest own? id first (l.findSome? own?) where
  eq_some_iff x := by
    refine ⟨h.exists_of_findSome?, ?_⟩
    rintro ⟨n, hn, hx, hbefore⟩
    cases hfound : l.findSome? own? with
    | none =>
      rw [h.findSome?_eq_none_iff.mp hfound n hn] at hx
      cases hx
    | some y =>
      -- both stand at the smallest number of steps, so they stand at the same one
      obtain ⟨m, hm, hy, hbefore'⟩ := h.exists_of_findSome? hfound
      rcases Nat.lt_trichotomy m n with hlt | rfl | hlt
      · rw [hbefore m hm hlt] at hy
        cases hy
      · exact hy.symm.trans hx
      · rw [hbefore' n hn hlt] at hx
        cases hx
  eq_none_iff := h.findSome?_eq_none_iff

end Covers

/-! ### Look-ups -/

/-- The bound on the walk loses nothing, whatever the parents of the classes are, cycles included. A
class stands above another if and only if one or more steps lead there; there are no more ancestors
than classes; and a method or an attribute of a name, looked up from the class itself or from its
parent on, is the one at the smallest number of steps in the chain without bound. -/
theorem ancestry_exact (registry : Registry) (id : ClassId) :
    (∀ ancestor, registry.isStrictAncestor ancestor id = true ↔ registry.Descends id ancestor) ∧
    (registry.ancestors id).length ≤ registry.size ∧
    ∀ name,
      registry.IsNearest (registry.ownMethod? · name) id 0 (registry.lookupMethod? id name) ∧
      registry.IsNearest (registry.ownMethod? · name) id 1 (registry.overridden? id name) ∧
      registry.IsNearest (registry.ownAttribute? · name) id 0
        (registry.lookupAttribute? id name) := by
  have hself := registry.covers_cons_ancestors id
  have hparent := registry.covers_ancestors id
  refine ⟨fun ancestor => isStrictAncestor_iff, registry.length_ancestors_le id, fun name => ?_⟩
  exact ⟨hself.isNearest_findSome? _, hparent.isNearest_findSome? _, hself.isNearest_findSome? _⟩

/-- On a cycle through all classes the walk comes back at the last step that the bound allows. -/
example :
    (Registry.mk #[
      { ClassDef.declared "Rock" 1 (.declared 0) (some "Paper") with parent := some ⟨1⟩ },
      { ClassDef.declared "Paper" 2 (.declared 1) (some "Scissors") with parent := some ⟨2⟩ },
      { ClassDef.declared "Scissors" 3 (.declared 2) (some "Rock") with parent := some ⟨0⟩ }]
      [("Rock", ⟨0⟩), ("Paper", ⟨1⟩), ("Scissors", ⟨2⟩)]).ancestors ⟨0⟩ = [⟨1⟩, ⟨2⟩, ⟨0⟩] := by
  decide

end Lcpl.Registry
