import Lcpl.Proofs.Ensures
import Lcpl.Proofs.Each

/-!
# Steps that preserve an invariant

A step keeps an invariant also when it fails, since it is left where it stopped. Steps that do so
are put together from such steps, also those on every element of a list and on the features of a
class.

## Main definitions

* `Step.Preserves` — a step that keeps an invariant, and fails in certain ways only
* `Step.Keeps` — a step that keeps an invariant, however it fails
* `Step.Beside` — an invariant of a state together with one of an item

## Main results

* `Step.Preserves.bind`, `Step.Preserves.forM`, `Step.Preserves.within` — steps put together
* `Step.Preserves.each`, `Step.Preserves.eachFrom` — a step on every element of a list
* `Step.Preserves.onMethod`, `Step.Preserves.onAttribute`, `Step.Preserves.eachFeature` — on the
  features of a class
-/

namespace Lcpl

/-- The failure is a rejection of the program. -/
def Failure.IsRejection (failure : Failure) : Prop := ∃ error, failure = .rejected error

theorem Failure.IsRejection.ne_fault {failure : Failure} (h : failure.IsRejection) (fault : Fault) :
    failure ≠ .fault fault := by
  obtain ⟨error, rfl⟩ := h
  simp

namespace Step

variable {σ τ α β : Type}

/-- From every state with `I`, the step ends in one, and if it fails, then with a failure in `F`. -/
def Preserves (I : σ → Prop) (F : Failure → Prop) (step : Step σ α) : Prop :=
  Ensures I step (fun _ => I) fun failure s => F failure ∧ I s

/-- However the step ends, it keeps `I`. -/
abbrev Keeps (I : σ → Prop) (step : Step σ α) : Prop := Preserves I (fun _ => True) step

/-- An invariant of a state and one of the item beside it. -/
def Beside (I : σ → Prop) (J : α → Prop) (t : σ × α) : Prop := I t.1 ∧ J t.2

namespace Preserves

variable {I : σ → Prop} {J : α → Prop} {F : Failure → Prop} {s : σ}

theorem final {step : Step σ α} (h : Preserves I F step) (hs : I s) : I (step.runFrom s).2 := by
  rcases hrun : step.runFrom s with ⟨failure | a, s'⟩
  · exact (h.error hs hrun).2
  · exact h.ok hs hrun

theorem of_final {step : Step σ α} (h : ∀ s, I s → I (step.runFrom s).2) : Keeps I step := by
  intro s hs
  have hfinal := h s hs
  rcases hrun : step.runFrom s with ⟨failure | a, s'⟩
  · rw [hrun] at hfinal
    exact ⟨trivial, hfinal⟩
  · rw [hrun] at hfinal
    exact hfinal

protected theorem pure (a : α) : Preserves I F (pure a) := fun _ hs => hs

protected theorem get : Preserves I F (get : Step σ σ) := fun _ hs => hs

protected theorem modify {change : σ → σ} (h : ∀ s, I s → I (change s)) :
    Preserves I F (modify change) := h

protected theorem reject {error : SemanticError} {line : Line} (h : F (.rejected ⟨line, error⟩)) :
    Preserves I F (reject error line : Step σ α) := fun _ hs => ⟨h, hs⟩

/-- Nothing comes behind a rejection. -/
theorem bind_reject {error : SemanticError} {line : Line} (h : F (.rejected ⟨line, error⟩))
    (next : α → Step σ β) : Preserves I F (Step.reject error line >>= next) :=
  fun _ hs => ⟨h, hs⟩

protected theorem fault {fault : Fault} (h : F (.fault fault)) :
    Preserves I F (Step.fault fault : Step σ α) := fun _ hs => ⟨h, hs⟩

protected theorem demand {fault : Fault} (h : F (.fault fault)) (value? : Option α) :
    Preserves I F (demand fault value?) := by
  cases value? with
  | none => exact .fault h
  | some value => exact .pure value

protected theorem ofExcept {result : Except Failure α}
    (h : ∀ failure, result = .error failure → F failure) : Preserves I F (ofExcept result) := by
  cases result with
  | error failure => exact fun _ hs => ⟨h failure rfl, hs⟩
  | ok value => exact .pure value

protected theorem bind {step : Step σ α} {next : α → Step σ β} (h : Preserves I F step)
    (hnext : ∀ a, Preserves I F (next a)) : Preserves I F (step >>= next) :=
  Ensures.bind h hnext

protected theorem forM {step : α → Step σ Unit} {xs : List α}
    (h : ∀ x ∈ xs, Preserves I F (step x)) : Preserves I F (xs.forM step) := by
  induction xs with
  | nil => exact .pure ()
  | cons x xs ih =>
    rw [List.forall_mem_cons] at h
    rw [List.forM_eq_forM, List.forM_cons]
    exact h.1.bind fun _ => ih h.2

/-- A step on a part of the state, beside a rest that does not matter to it. -/
protected theorem within {I' : τ → Prop} {part : τ → σ} {put : σ → τ → τ} {step : Step σ α}
    (h : Preserves I F step) (hpart : ∀ t, I' t → I (part t))
    (hput : ∀ s t, I' t → I s → I' (put s t)) : Preserves I' F (step.within part put) := by
  intro t ht
  rw [runFrom_within]
  rcases hrun : step.runFrom (part t) with ⟨failure | a, s⟩
  · obtain ⟨hfailure, hs⟩ := h.error (hpart t ht) hrun
    exact ⟨hfailure, hput s t ht hs⟩
  · exact hput s t ht (h.ok (hpart t ht) hrun)

/-- An invariant that every item has need not be spoken of. -/
theorem any {step : Step (σ × α) β} (h : Preserves (Beside I J) F step) (hJ : ∀ x, J x) :
    Preserves (Beside I fun _ => True) F step := by
  rintro ⟨s, x⟩ ⟨hs, -⟩
  rcases hrun : step.runFrom (s, x) with ⟨failure | b, s', x'⟩
  · obtain ⟨hfailure, hs', -⟩ := h.error ⟨hs, hJ x⟩ hrun
    exact ⟨hfailure, hs', trivial⟩
  · exact ⟨(h.ok ⟨hs, hJ x⟩ hrun).1, trivial⟩

/-! ### Elements of a list -/

/-- A step at every position of a list. -/
theorem eachFrom {step : Nat → Step (σ × α) Unit} {xs : List α}
    (h : ∀ j < xs.length, Preserves (Beside I J) F (step j)) (hs : I s) (hxs : ∀ x ∈ xs, J x) :
    Ends (fun s ys => I s ∧ ∀ y ∈ ys, J y) (fun failure s ys => F failure ∧ I s ∧ ∀ y ∈ ys, J y)
      (Step.eachFrom step 0 xs s) := by
  have hall : Ends (fun s ys => ys.length = xs.length ∧ I s ∧ ∀ y ∈ ys, J y)
      (fun failure s ys => F failure ∧ I s ∧ ∀ y ∈ ys, J y) (Step.eachFrom step 0 xs s) := by
    refine eachFrom_invariant (I := fun _ s ys => ys.length = xs.length ∧ I s ∧ ∀ y ∈ ys, J y)
      ?_ ⟨rfl, hs, hxs⟩
    rintro j s ys x ⟨hlength, hs, hys⟩ hx
    have hj : j < xs.length := hlength ▸ (List.getElem?_eq_some_iff.mp hx).1
    have hset {x' : α} (hx' : J x') : ∀ y ∈ ys.set j x', J y := by
      intro y hy
      rcases List.mem_or_eq_of_mem_set hy with hy | rfl
      · exact hys y hy
      · exact hx'
    have hbeside : Beside I J (s, x) := ⟨hs, hys x (List.mem_of_getElem? hx)⟩
    rcases hrun : (step j).runFrom (s, x) with ⟨failure | ⟨⟩, s', x'⟩
    · obtain ⟨hfailure, hs', hx'⟩ := (h j hj).error hbeside hrun
      exact ⟨hfailure, hs', hset hx'⟩
    · obtain ⟨hs', hx'⟩ := (h j hj).ok hbeside hrun
      exact ⟨(List.length_set ..).trans hlength, hs', hset hx'⟩
  exact hall.imp fun _ _ h => h.2

theorem final_eachFrom {step : Nat → Step (σ × α) Unit} {xs : List α}
    (h : ∀ k, Preserves (Beside I J) F (step k)) (hs : I s) (hxs : ∀ x ∈ xs, J x) :
    Beside I (fun ys => ∀ y ∈ ys, J y) (Step.eachFrom step 0 xs s).2 := by
  have hends := eachFrom (fun j _ => h j) hs hxs
  rcases hrun : Step.eachFrom step 0 xs s with ⟨failure | ⟨⟩, s', ys⟩
  · rw [hrun] at hends
    exact hends.2
  · rw [hrun] at hends
    exact hends

protected theorem each {step : Nat → Step (σ × α) Unit}
    (h : ∀ k, Preserves (Beside I J) F (step k)) :
    Preserves (Beside I fun xs => ∀ x ∈ xs, J x) F (Step.each step) := by
  rintro ⟨s, xs⟩ ⟨hs, hxs⟩
  have hends := eachFrom (fun j _ => h j) hs hxs
  rw [runFrom_each]
  rcases hrun : Step.eachFrom step 0 xs s with ⟨failure | ⟨⟩, s', ys⟩
  · rw [hrun] at hends
    exact hends
  · rw [hrun] at hends
    exact hends

/-! ### Features of a class -/

theorem onMethod {J : Feature → Prop} {step : Step (σ × Method) Unit}
    (h : Preserves (Beside I fun m => J (.method m)) F step) :
    Preserves (Beside I J) F (Feature.onMethod step) := by
  rintro ⟨s, m | a⟩ hs
  · have hstep := h (s, m) hs
    rw [Feature.runFrom_onMethod]
    rcases hrun : step.runFrom (s, m) with ⟨failure | ⟨⟩, s', m'⟩
    · rw [hrun] at hstep
      exact hstep
    · rw [hrun] at hstep
      exact hstep
  · exact hs

theorem onAttribute {J : Feature → Prop} {step : Step (σ × Attribute) Unit}
    (h : Preserves (Beside I fun a => J (.attribute a)) F step) :
    Preserves (Beside I J) F (Feature.onAttribute step) := by
  rintro ⟨s, m | a⟩ hs
  · exact hs
  · have hstep := h (s, a) hs
    rw [Feature.runFrom_onAttribute]
    rcases hrun : step.runFrom (s, a) with ⟨failure | ⟨⟩, s', a'⟩
    · rw [hrun] at hstep
      exact hstep
    · rw [hrun] at hstep
      exact hstep

theorem eachFeature {J : Feature → Prop} {step : Step (σ × Feature) Unit}
    (h : Preserves (Beside I J) F step) :
    Preserves (Beside I fun c => ∀ f ∈ c.features, J f) F (Class.eachFeature step) :=
  (Preserves.each fun _ => h).within (fun _ ht => ht) fun _ _ _ hs => hs

end Preserves

end Step

end Lcpl
