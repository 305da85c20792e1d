import Lcpl.Proofs.Lockstep

/-!
# What a step ensures

A step ensures something of its result and of the state it leaves, for success and for failure.

## Main definitions

* `Step.Ensures` — from every state with a precondition, the step ends as described

## Main results

* `Step.Ensures.bind` — sequencing
* `Step.Ensures.ok`, `Step.Ensures.error` — what a run has arrived at
-/

namespace Lcpl.Step

variable {σ α β : Type}

/-- From every state with `pre`, the step yields something and ends with `post`, or it fails and
ends with `failed`. -/
def Ensures (pre : σ → Prop) (step : Step σ α) (post : α → σ → Prop)
    (failed : Failure → σ → Prop) : Prop :=
  ∀ s, pre s →
    match step.runFrom s with
    | (.ok a, s') => post a s'
    | (.error failure, s') => failed failure s'

namespace Ensures

variable {pre pre' : σ → Prop} {step : Step σ α} {post post' : α → σ → Prop}
variable {failed : Failure → σ → Prop} {s s' : σ}

theorem ok {a : α} (h : Ensures pre step post failed) (hs : pre s)
    (hrun : step.runFrom s = (.ok a, s')) : post a s' := by
  have := h s hs
  rw [hrun] at this
  exact this

theorem error {failure : Failure} (h : Ensures pre step post failed) (hs : pre s)
    (hrun : step.runFrom s = (.error failure, s')) : failed failure s' := by
  have := h s hs
  rw [hrun] at this
  exact this

theorem mono (h : Ensures pre step post failed) (hpre : ∀ s, pre' s → pre s)
    (hpost : ∀ a s, post a s → post' a s) : Ensures pre' step post' failed := by
  intro s hs
  have := h s (hpre s hs)
  rcases hrun : step.runFrom s with ⟨failure | a, s'⟩
  · exact h.error (hpre s hs) hrun
  · exact hpost _ _ (h.ok (hpre s hs) hrun)

theorem mono_failed {failed' : Failure → σ → Prop} (h : Ensures pre step post failed)
    (hfailed : ∀ failure s, failed failure s → failed' failure s) :
    Ensures pre step post failed' := by
  intro s hs
  rcases hrun : step.runFrom s with ⟨failure | a, s'⟩
  · exact hfailed _ _ (h.error hs hrun)
  · exact h.ok hs hrun

/-- What is ensured of success and of failure alike holds where the step ends. -/
theorem final {P : σ → Prop} (h : Ensures pre step (fun _ => P) fun _ => P) (hs : pre s) :
    P (step.runFrom s).2 := by
  rcases hrun : step.runFrom s with ⟨failure | a, s'⟩
  · exact h.error hs hrun
  · exact h.ok hs hrun

protected theorem pure {a : α} (h : ∀ s, pre s → post a s) :
    Ensures pre (pure a) post failed :=
  fun s hs => h s hs

protected theorem bind {next : α → Step σ β} {post' : β → σ → Prop}
    (h : Ensures pre step post failed) (hnext : ∀ a, Ensures (post a) (next a) post' failed) :
    Ensures pre (step >>= next) post' failed := by
  intro s hs
  rw [runFrom_bind]
  rcases hrun : step.runFrom s with ⟨failure | a, s'⟩
  · exact h.error hs hrun
  · exact hnext a s' (h.ok hs hrun)

protected theorem reject {error : SemanticError} {line : Line}
    (h : ∀ s, pre s → failed (.rejected ⟨line, error⟩) s) :
    Ensures pre (reject error line : Step σ α) post failed :=
  fun s hs => h s hs

theorem bind_reject {error : SemanticError} {line : Line} {next : α → Step σ β}
    {post' : β → σ → Prop} (h : ∀ s, pre s → failed (.rejected ⟨line, error⟩) s) :
    Ensures pre (Step.reject error line >>= next) post' failed :=
  fun s hs => h s hs

/-- A demand that is met. -/
theorem bind_demand {f : Fault} {value? : Option α} {value : α} {next : α → Step σ β}
    {post' : β → σ → Prop} (hvalue : value? = some value)
    (hnext : Ensures pre (next value) post' failed) :
    Ensures pre (demand f value? >>= next) post' failed := by
  subst hvalue
  exact hnext

/-- A demand that may not be met. -/
theorem bind_demand_cases {f : Fault} {value? : Option α} {next : α → Step σ β}
    {post' : β → σ → Prop} (hfailed : ∀ failure s, pre s → failed failure s)
    (hnext : ∀ value, value? = some value → Ensures pre (next value) post' failed) :
    Ensures pre (demand f value? >>= next) post' failed := by
  cases value? with
  | none => exact fun s hs => hfailed _ s hs
  | some value => exact hnext value rfl

/-- A fact that the precondition implies may be used. -/
theorem of_pre {p : Prop} (hp : ∀ s, pre s → p) (h : p → Ensures pre step post failed) :
    Ensures pre step post failed :=
  fun s hs => h (hp s hs) s hs

end Ensures

end Lcpl.Step
