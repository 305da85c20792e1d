import Lcpl.Analysis.Run
import Lcpl.Proofs.Arena.Reads
import Lcpl.Proofs.Each
import Lcpl.Proofs.Lockstep

/-!
# Steps on items that own nodes

The features and classes of a program own the nodes below their roots. A step on an item changes the
nodes of that item only, and so it does not disturb what is known of the others. What a step does to
one item is lifted here to lists of items, and to the two passes over the features of a class.

A step that is run again on what it has left may find everything settled. Such a run is described by
`Replays`, which is lifted in the same way.

## Main definitions

* `Owned` — assertions on an item beside an arena, with the handles that the item owns
* `Keeps` — what a step on an item does to what is known of it
* `EachFrom`, `Trail` — assertions on lists, after a success and after a failure
* `Replays` — a step that ends with a known result and changes nothing

## Main results

* `keeps_eachFrom`, `Keeps.eachFeature` — a step on every item
* `EachFrom.replays`, `Trail.replays` — a run on items that are settled
-/

namespace Lcpl

variable {α : Type}

/-- An assertion on an item beside an arena. The list holds the handles that the item owns. -/
abbrev Owned (α : Type) := Arena → α → List ExprId → Prop

/-- The assertion depends on the owned nodes only. -/
structure Owned.Framed (P : Owned α) : Prop where
  lt_size : ∀ {a x ids}, P a x ids → ∀ i ∈ ids, i.index < a.size
  of_get? : ∀ {a b x ids}, P a x ids → a.size ≤ b.size → (∀ i ∈ ids, b.get? i = a.get? i) →
    P b x ids

/-- From an item with `P`, the step succeeds and leaves the item with `Q`, or it fails and leaves it
with `F`. Only nodes that the item owns are changed. -/
def Keeps (P : Owned α) (step : Step (Checking × α) Unit) (Q : Owned α) (F : Failure → Owned α) :
    Prop :=
  ∀ a x ids log, P a x ids → ids.Nodup → ∃ b x' ids' log', a.Grows ids b ids' ∧
    (step.runFrom (⟨a, log⟩, x) = (.ok (), ⟨b, log'⟩, x') ∧ Q b x' ids' ∨
      ∃ failure, step.runFrom (⟨a, log⟩, x) = (.error failure, ⟨b, log'⟩, x') ∧
        F failure b x' ids')

namespace Keeps

variable {P Q R : Owned α} {F G : Failure → Owned α} {step next : Step (Checking × α) Unit}

theorem mono (h : Keeps P step Q F) {P' Q' : Owned α} {F' : Failure → Owned α}
    (hP : ∀ a x ids, P' a x ids → P a x ids) (hQ : ∀ a x ids, Q a x ids → Q' a x ids)
    (hF : ∀ f a x ids, F f a x ids → F' f a x ids) : Keeps P' step Q' F' := by
  intro a x ids log hx hnodup
  obtain ⟨b, x', ids', log', hgrows, ⟨hrun, hQ'⟩ | ⟨failure, hrun, hF'⟩⟩ :=
    h a x ids log (hP _ _ _ hx) hnodup
  · exact ⟨b, x', ids', log', hgrows, .inl ⟨hrun, hQ _ _ _ hQ'⟩⟩
  · exact ⟨b, x', ids', log', hgrows, .inr ⟨failure, hrun, hF _ _ _ _ hF'⟩⟩

protected theorem bind (h : Keeps P step Q F) (hnext : Keeps Q next R F) :
    Keeps P (step >>= fun _ => next) R F := by
  intro a x ids log hx hnodup
  obtain ⟨b, y, own, log', hgrows, ⟨hrun, hy⟩ | ⟨failure, hrun, hy⟩⟩ := h a x ids log hx hnodup
  · obtain ⟨c, z, own', log'', hgrows', hz⟩ := hnext b y own log' hy hgrows.nodup
    refine ⟨c, z, own', log'', hgrows.trans hgrows', ?_⟩
    rw [Step.runFrom_bind_of_ok hrun]
    exact hz
  · exact ⟨b, y, own, log', hgrows, .inr ⟨failure, Step.runFrom_bind_of_error hrun, hy⟩⟩

end Keeps

/-! ### Lists -/

/-- Every item of a list, the first of which has the given position, satisfies its assertion, and no
two own a node together. -/
inductive EachFrom (P : Nat → Owned α) (a : Arena) : Nat → List α → List ExprId → Prop where
  | nil {k} : EachFrom P a k [] []
  | cons {k x xs ids rest} (head : P k a x ids) (tail : EachFrom P a (k + 1) xs rest) :
      EachFrom P a k (x :: xs) (ids ++ rest)

/-- After a failure: the items in front of one have been handled, that one is left by the failure,
and those behind it are as before. -/
inductive Trail (P Q : Nat → Owned α) (F : Nat → Failure → Owned α) (failure : Failure)
    (a : Arena) :
    Nat → List α → List ExprId → Prop where
  | here {k x xs ids rest} (head : F k failure a x ids) (tail : EachFrom P a (k + 1) xs rest) :
      Trail P Q F failure a k (x :: xs) (ids ++ rest)
  | later {k x xs ids rest} (head : Q k a x ids) (tail : Trail P Q F failure a (k + 1) xs rest) :
      Trail P Q F failure a k (x :: xs) (ids ++ rest)

variable {P Q R : Nat → Owned α} {F : Nat → Failure → Owned α} {failure : Failure}
variable {a b : Arena} {k : Nat} {xs : List α} {ids : List ExprId}

theorem EachFrom.mono (h : EachFrom P a k xs ids)
    (hPR : ∀ k x own, own.Sublist ids → P k a x own → R k a x own) : EachFrom R a k xs ids := by
  induction h with
  | nil => exact .nil
  | cons head tail ih =>
    refine .cons (hPR _ _ _ (List.sublist_append_left ..) head) (ih fun k x own hsub => ?_)
    exact hPR k x own (hsub.trans (List.sublist_append_right ..))

theorem EachFrom.framed (hP : ∀ k, (P k).Framed) (k : Nat) :
    Owned.Framed fun a xs ids => EachFrom P a k xs ids where
  lt_size {a xs ids} h := by
    induction h with
    | nil => simp
    | cons head tail ih =>
      intro i hi
      rcases List.mem_append.mp hi with hi | hi
      · exact (hP _).lt_size head i hi
      · exact ih i hi
  of_get? {a b xs ids} h hsize hget := by
    induction h with
    | nil => exact .nil
    | cons head tail ih =>
      exact .cons ((hP _).of_get? head hsize fun i hi => hget i (List.mem_append_left _ hi))
        (ih fun i hi => hget i (List.mem_append_right _ hi))

theorem Trail.mono {P' Q' : Nat → Owned α} {F' : Nat → Failure → Owned α}
    (h : Trail P Q F failure a k xs ids)
    (hP : ∀ k x own, own.Sublist ids → P k a x own → P' k a x own)
    (hQ : ∀ k x own, own.Sublist ids → Q k a x own → Q' k a x own)
    (hF : ∀ k x own, own.Sublist ids → F k failure a x own → F' k failure a x own) :
    Trail P' Q' F' failure a k xs ids := by
  induction h with
  | here head tail =>
    refine .here (hF _ _ _ (List.sublist_append_left ..) head) (tail.mono fun k x own hsub => ?_)
    exact hP k x own (hsub.trans (List.sublist_append_right ..))
  | later head tail ih =>
    have hright {own rest : List ExprId} := List.sublist_append_right own rest
    exact .later (hQ _ _ _ (List.sublist_append_left ..) head) (ih
      (fun k x own hsub => hP k x own (hsub.trans hright))
      (fun k x own hsub => hQ k x own (hsub.trans hright))
      (fun k x own hsub => hF k x own (hsub.trans hright)))

/-- What holds of an item in each of the three places holds of all of them. -/
theorem Trail.eachFrom (h : Trail P P (fun k _ => P k) failure a k xs ids) :
    EachFrom P a k xs ids := by
  induction h with
  | here head tail => exact .cons head tail
  | later head tail ih => exact .cons head ih

/-- A step on every item of a list. -/
theorem keeps_eachFrom {step : Nat → Step (Checking × α) Unit}
    (hstep : ∀ k, Keeps (P k) (step k) (Q k) (F k)) (hP : ∀ k, (P k).Framed)
    (hQ : ∀ k, (Q k).Framed) (h : EachFrom P a k xs ids) (hnodup : ids.Nodup) (log : Array Event) :
    ∃ b ys ids' log', a.Grows ids b ids' ∧
      (Step.eachFrom step k xs ⟨a, log⟩ = (.ok (), ⟨b, log'⟩, ys) ∧ EachFrom Q b k ys ids' ∨
        ∃ failure, Step.eachFrom step k xs ⟨a, log⟩ = (.error failure, ⟨b, log'⟩, ys) ∧
          Trail P Q F failure b k ys ids') := by
  induction xs generalizing k a ids log with
  | nil =>
    cases h
    exact ⟨a, [], [], log, .refl .nil, .inl ⟨rfl, .nil⟩⟩
  | cons x xs ih =>
    cases h with
    | cons head tail =>
      rename_i own rest
      have hlt := (EachFrom.framed hP (k + 1)).lt_size tail
      obtain ⟨b, x', own', log', hgrows, hx⟩ :=
        hstep k a x own log head (List.nodup_append.mp hnodup).1
      have hgrows' := hgrows.frame hnodup hlt
      have htail := (EachFrom.framed hP (k + 1)).of_get? tail hgrows.size_le
        (hgrows.get?_eq_of_append hnodup hlt)
      rcases hx with ⟨hrun, hx'⟩ | ⟨failure, hrun, hx'⟩
      · -- the other items are handled beside this one
        obtain ⟨c, ys, rest', log'', hrest, hys⟩ :=
          ih htail (List.nodup_append.mp hgrows'.nodup).2.1 log'
        have hswap : (rest ++ own').Nodup := List.perm_append_comm.nodup_iff.mp hgrows'.nodup
        have hown := (hQ k).lt_size hx'
        have hx'' := (hQ k).of_get? hx' hrest.size_le (hrest.get?_eq_of_append hswap hown)
        refine ⟨c, x' :: ys, own' ++ rest', log'', hgrows'.trans
          ((hrest.frame hswap hown).perm List.perm_append_comm List.perm_append_comm), ?_⟩
        rw [Step.eachFrom_cons_of_ok hrun]
        rcases hys with ⟨hrun', hys⟩ | ⟨failure, hrun', hys⟩
        · exact .inl ⟨by rw [hrun'], .cons hx'' hys⟩
        · exact .inr ⟨failure, by rw [hrun'], .later hx'' hys⟩
      · exact ⟨b, x' :: xs, own' ++ rest, log', hgrows', .inr ⟨failure,
          Step.eachFrom_cons_of_error hrun, .here hx' htail⟩⟩

/-- A step on every feature of a class. -/
theorem Keeps.eachFeature {P Q : Owned Feature} {F : Failure → Owned Feature}
    {step : Step (Checking × Feature) Unit} (hstep : Keeps P step Q F) (hP : P.Framed)
    (hQ : Q.Framed) :
    Keeps (fun a c ids => EachFrom (fun _ => P) a 0 c.features ids) (Class.eachFeature step)
      (fun a c ids => EachFrom (fun _ => Q) a 0 c.features ids)
      (fun f a c ids => Trail (fun _ => P) (fun _ => Q) (fun _ => F) f a 0 c.features ids) := by
  intro a c ids log h hnodup
  obtain ⟨b, features, ids', log', hgrows, hrun⟩ :=
    keeps_eachFrom (fun _ => hstep) (fun _ => hP) (fun _ => hQ) h hnodup log
  refine ⟨b, { c with features }, ids', log', hgrows, ?_⟩
  rw [Class.runFrom_eachFeature]
  rcases hrun with ⟨hrun, h'⟩ | ⟨failure, hrun, h'⟩
  · exact .inl ⟨by rw [hrun], h'⟩
  · exact .inr ⟨failure, by rw [hrun], h'⟩

/-! ### Running again -/

/-- The second arena is the first one with nodes appended. -/
def Arena.Appends (a b : Arena) : Prop := a.Grows [] b []

theorem Arena.Appends.refl (a : Arena) : a.Appends a := Grows.refl .nil

/-- The step ends with the given result and leaves the item as it is, wherever the owned nodes are
as they are here. Nodes may be appended if it fails. -/
def Replays (step : Step (Checking × α) Unit) (result : Except Failure Unit) : Owned α :=
  fun a x ids => ∀ b log, a.size ≤ b.size → (∀ i ∈ ids, b.get? i = a.get? i) →
    ∃ c log', step.runFrom (⟨b, log⟩, x) = (result, ⟨c, log'⟩, x) ∧ b.Appends c ∧
      (result = .ok () → c = b)

theorem Replays.bind {step next : Step (Checking × α) Unit} {result : Except Failure Unit} {x : α}
    (h : Replays step (.ok ()) a x ids) (hnext : Replays next result a x ids) :
    Replays (step >>= fun _ => next) result a x ids := by
  intro b log hsize hget
  obtain ⟨c, log', hrun, -, hc⟩ := h b log hsize hget
  obtain rfl := hc rfl
  rw [Step.runFrom_bind_of_ok hrun]
  exact hnext c log' hsize hget

theorem Replays.bind_error {step next : Step (Checking × α) Unit} {x : α}
    (h : Replays step (.error failure) a x ids) :
    Replays (step >>= fun _ => next) (.error failure) a x ids := by
  intro b log hsize hget
  obtain ⟨c, log', hrun, happends, -⟩ := h b log hsize hget
  exact ⟨c, log', Step.runFrom_bind_of_error hrun, happends, nofun⟩

/-- A run on items that are all settled. -/
theorem EachFrom.replays {step : Nat → Step (Checking × α) Unit}
    (h : EachFrom (fun k => Replays (step k) (.ok ())) a k xs ids) (log : Array Event)
    (hsize : a.size ≤ b.size) (hget : ∀ i ∈ ids, b.get? i = a.get? i) :
    ∃ log', Step.eachFrom step k xs ⟨b, log⟩ = (.ok (), ⟨b, log'⟩, xs) := by
  induction h generalizing log with
  | nil => exact ⟨log, rfl⟩
  | cons head tail ih =>
    obtain ⟨c, log', hrun, -, hc⟩ :=
      head b log hsize fun i hi => hget i (List.mem_append_left _ hi)
    obtain rfl := hc rfl
    obtain ⟨log'', hrest⟩ := ih log' fun i hi => hget i (List.mem_append_right _ hi)
    exact ⟨log'', by rw [Step.eachFrom_cons_of_ok hrun, hrest]⟩

/-- A run on items that are settled up to one on which the step fails. -/
theorem Trail.replays {step : Nat → Step (Checking × α) Unit}
    (h : Trail P (fun k => Replays (step k) (.ok ())) (fun k f => Replays (step k) (.error f))
      failure a k xs ids) (log : Array Event) (hsize : a.size ≤ b.size)
    (hget : ∀ i ∈ ids, b.get? i = a.get? i) :
    ∃ c log', Step.eachFrom step k xs ⟨b, log⟩ = (.error failure, ⟨c, log'⟩, xs) ∧
      b.Appends c := by
  induction h generalizing log with
  | here head tail =>
    obtain ⟨c, log', hrun, happends, -⟩ :=
      head b log hsize fun i hi => hget i (List.mem_append_left _ hi)
    exact ⟨c, log', Step.eachFrom_cons_of_error hrun, happends⟩
  | later head tail ih =>
    obtain ⟨c, log', hrun, -, hc⟩ :=
      head b log hsize fun i hi => hget i (List.mem_append_left _ hi)
    obtain rfl := hc rfl
    obtain ⟨d, log'', hrest, happends⟩ := ih log' fun i hi => hget i (List.mem_append_right _ hi)
    exact ⟨d, log'', by rw [Step.eachFrom_cons_of_ok hrun, hrest], happends⟩

end Lcpl
