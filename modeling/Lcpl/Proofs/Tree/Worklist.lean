import Lcpl.Proofs.Tree.References

/-!
# The walk ends by itself

The walk over the nodes of a program is written with a bound on the nodes that it may still see.
Here it is described once more without any bound, as a loop that takes a slot off a stack for as
long as it can. The loop ends on every program whose slots lead to nodes, also where these lead back
to each other: each time round it sees a node that it has not seen before. The bound is never what
stops it.

## Main definitions

* `Worklist`, `Worklist.advance?` — the state of the walk, and going round once
* `Worklist.Ends` — the loop, without a bound
* `Worklist.verdict` — what the walk has found in the end

## Main results

* `Program.Walk.exists_ends` — from every state of the walk the loop ends
* `Program.exists_ends_worklist` — it sees each node once at most, and finds what the check reports
-/

namespace Lcpl

/-- The state of the walk: the nodes seen, and the slots that wait, the last pushed first. -/
structure Worklist where
  seen : List ExprId
  pending : List Slot

namespace Worklist

/-- Goes round once. The walk stops where nothing waits, and at a slot that leads to a node seen. -/
def advance? (a : Arena) (w : Worklist) : Option Worklist :=
  match w.pending with
  | [] => none
  | slot :: pending =>
      if slot.child ∈ w.seen then none
      else some ⟨slot.child :: w.seen, (a.childSlots slot.child).reverse ++ pending⟩

/-- The walk goes round a number of times and stops. -/
inductive Ends (a : Arena) : Nat → Worklist → Worklist → Prop where
  | stop {w} (h : advance? a w = none) : Ends a 0 w w
  | again {n w next last} (h : advance? a w = some next) (hends : Ends a n next last) :
      Ends a (n + 1) w last

/-- What the walk has found in the end: a slot is left only if it leads to a node seen. -/
def verdict (w : Worklist) : Except ReferenceError Unit :=
  match w.pending with
  | [] => .ok ()
  | slot :: _ => .error (.shared slot)

variable {a : Arena} {slot : Slot} {pending : List Slot} {seen : List ExprId}

theorem advance?_of_mem (h : slot.child ∈ seen) : advance? a ⟨seen, slot :: pending⟩ = none :=
  if_pos h

theorem advance?_of_not_mem (h : slot.child ∉ seen) :
    advance? a ⟨seen, slot :: pending⟩ =
      some ⟨slot.child :: seen, (a.childSlots slot.child).reverse ++ pending⟩ :=
  if_neg h

end Worklist

namespace Program

variable {p : Program}

/-- Where the walk over a program begins: nothing is seen, and the roots wait. -/
def worklist (p : Program) : Worklist := ⟨[], p.rootSlots.reverse⟩

/-- From every state of the walk the loop ends, after as many rounds as there are nodes to see at
most, and at the slot that the walk with a bound returns. -/
theorem Walk.exists_ends {unseen : Nat} {seen : List ExprId} {taken pending : List Slot}
    (h : p.Walk unseen seen taken pending) (hinside : p.Inside) :
    ∃ n left w taken', Worklist.Ends p.exprs n ⟨seen, pending⟩ w ∧ n + left = unseen ∧
      p.Walk left w.seen taken' w.pending ∧
      p.exprs.revisited? unseen seen pending = w.pending.head? := by
  -- the nodes not yet seen are what decreases; the walk takes one of them each time round
  induction unseen generalizing seen taken pending with
  | zero =>
    cases pending with
    | nil => exact ⟨0, 0, ⟨seen, []⟩, taken, .stop rfl, rfl, h, rfl⟩
    | cons slot pending =>
      -- every node is seen, so the next slot leads to one of them
      have hseen := h.mem_seen_of_zero hinside List.mem_cons_self
      exact ⟨0, 0, ⟨seen, slot :: pending⟩, taken, .stop (Worklist.advance?_of_mem hseen),
        rfl, h, rfl⟩
  | succ unseen ih =>
    cases pending with
    | nil => exact ⟨0, unseen + 1, ⟨seen, []⟩, taken, .stop rfl, Nat.zero_add _, h, rfl⟩
    | cons slot pending =>
      rw [Arena.revisited?]
      by_cases hseen : slot.child ∈ seen
      · rw [if_pos hseen]
        exact ⟨0, unseen + 1, ⟨seen, slot :: pending⟩, taken,
          .stop (Worklist.advance?_of_mem hseen), Nat.zero_add _, h, rfl⟩
      · rw [if_neg hseen]
        obtain ⟨n, left, w, taken', hends, hcount, hwalk, hslot⟩ := ih (h.step hinside hseen)
        exact ⟨n + 1, left, w, taken', .again (Worklist.advance?_of_not_mem hseen) hends, by omega,
          hwalk, hslot⟩

/-- Where every slot leads to a node, the loop ends. It sees a new node each time round, and finds
what the check reports. -/
theorem exists_ends_worklist (hinside : p.Inside) :
    ∃ n w, Worklist.Ends p.exprs n p.worklist w ∧ n ≤ p.exprs.size ∧ w.seen.length = n ∧
      w.seen.Nodup ∧ (∀ id ∈ w.seen, id.index < p.exprs.size) ∧ p.checkForest = w.verdict := by
  obtain ⟨n, left, w, taken, hends, hcount, hwalk, hslot⟩ := (Walk.init p).exists_ends hinside
  have hfind : p.slots.find? (fun slot => !p.exprs.contains slot.child) = none := by
    simpa [Inside] using hinside
  have hlength := hwalk.count
  refine ⟨n, w, hends, by omega, by omega, hwalk.nodup, hwalk.lt_size, ?_⟩
  rw [checkForest, hfind]
  dsimp only
  rw [hslot, Worklist.verdict]
  cases w.pending <;> rfl

end Program

end Lcpl
