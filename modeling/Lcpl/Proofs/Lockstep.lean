import Lcpl.Analysis.Step

/-!
# Steps that run in lockstep

Two steps, on states of different kinds, run in lockstep when from related states they end alike:
both yield something, or both fail for the same reason. The relation composes along the sequencing
of steps, so that a step can be compared with another one piece by piece.

## Main definitions

* `Step.Alike` — two runs that end alike
* `Step.Lockstep` — steps whose runs end alike from all related states
* `Step.Constant` — a step that does not depend on the state and leaves it as it is

## Main results

* `Step.Lockstep.bind` — sequencing
* `Step.Lockstep.bind_constant` — the same step without state on both sides
* `Step.runFrom_bind_eq_ok` — what a sequence that yields something has done
-/

namespace Lcpl.Step

variable {σ τ α β α' β' : Type}

/-! ### Single runs -/

theorem runFrom_bind_of_ok {first : Step σ α} {second : α → Step σ β} {s s' : σ} {value : α}
    (h : first.runFrom s = (.ok value, s')) :
    (first >>= second).runFrom s = (second value).runFrom s' := by
  rw [runFrom_bind, h]

theorem runFrom_bind_of_error {first : Step σ α} {second : α → Step σ β} {s s' : σ}
    {failure : Failure} (h : first.runFrom s = (.error failure, s')) :
    (first >>= second).runFrom s = (.error failure, s') := by
  rw [runFrom_bind, h]

/-- A sequence that yields something has run both of its steps. -/
theorem runFrom_bind_eq_ok {first : Step σ α} {second : α → Step σ β} {s s'' : σ} {value : β} :
    (first >>= second).runFrom s = (.ok value, s'') ↔
      ∃ a s', first.runFrom s = (.ok a, s') ∧ (second a).runFrom s' = (.ok value, s'') := by
  rw [runFrom_bind]
  rcases first.runFrom s with ⟨failure | a, s'⟩
  · simp
  · constructor
    · intro h
      exact ⟨a, s', rfl, h⟩
    · rintro ⟨b, t, hbt, h⟩
      obtain ⟨rfl, rfl⟩ := by simpa using hbt
      exact h

/-- What neither of two steps changes stays along the sequence. -/
theorem runFrom_bind_invariant {first : Step σ α} {second : α → Step σ β} (key : σ → τ)
    (hfirst : ∀ s, key (first.runFrom s).2 = key s)
    (hsecond : ∀ a s, key ((second a).runFrom s).2 = key s) (s : σ) :
    key ((first >>= second).runFrom s).2 = key s := by
  have := hfirst s
  rcases hrun : first.runFrom s with ⟨failure | a, s'⟩
  · rw [runFrom_bind_of_error hrun]
    rwa [hrun] at this
  · rw [runFrom_bind_of_ok hrun, hsecond]
    rwa [hrun] at this

/-- A step that does not depend on the state and leaves it as it is. -/
structure Constant (step : Step σ α) (result : Except Failure α) : Prop where
  runFrom_eq : ∀ s, step.runFrom s = (result, s)

theorem constant_demand (f : Fault) (value? : Option α) :
    Constant (demand f value? : Step σ α) (match value? with
      | some value => .ok value
      | none => .error (.fault f)) := by
  refine ⟨fun s => ?_⟩
  cases value? <;> rfl

/-! ### Pairs of runs -/

/-- Two runs end alike: both yield something, and `post` relates it and the states left, or both
fail for the same reason, and `failed` relates the states left. -/
def Alike (failed : σ → τ → Prop) (post : α → β → σ → τ → Prop) :
    Except Failure α × σ → Except Failure β × τ → Prop
  | (.ok a, s), (.ok b, t) => post a b s t
  | (.error failure, s), (.error failure', t) => failure = failure' ∧ failed s t
  | _, _ => False

theorem Alike.cases {failed : σ → τ → Prop} {post : α → β → σ → τ → Prop}
    {ran : Except Failure α × σ} {ran' : Except Failure β × τ} (h : Alike failed post ran ran') :
    (∃ a b s t, ran = (.ok a, s) ∧ ran' = (.ok b, t) ∧ post a b s t) ∨
      ∃ failure s t, ran = (.error failure, s) ∧ ran' = (.error failure, t) ∧ failed s t := by
  rcases ran with ⟨_ | a, s⟩ <;> rcases ran' with ⟨_ | b, t⟩
  · obtain ⟨rfl, h⟩ := h
    exact .inr ⟨_, s, t, rfl, rfl, h⟩
  · exact h.elim
  · exact h.elim
  · exact .inl ⟨a, b, s, t, rfl, rfl, h⟩

/-- Two steps end alike from any two states that `pre` relates. -/
def Lockstep (failed pre : σ → τ → Prop) (first : Step σ α) (second : Step τ β)
    (post : α → β → σ → τ → Prop) : Prop :=
  ∀ s t, pre s t → Alike failed post (first.runFrom s) (second.runFrom t)

namespace Lockstep

variable {failed pre pre' : σ → τ → Prop} {first : Step σ α} {second : Step τ β}
variable {post post' : α → β → σ → τ → Prop}

theorem mono (h : Lockstep failed pre first second post) (hpre : ∀ s t, pre' s t → pre s t)
    (hpost : ∀ a b s t, post a b s t → post' a b s t) :
    Lockstep failed pre' first second post' := by
  intro s t hst
  rcases (h s t (hpre s t hst)).cases with ⟨a, b, s', t', hs, ht, h⟩ | ⟨failure, s', t', hs, ht, h⟩
  · rw [hs, ht]
    exact hpost _ _ _ _ h
  · rw [hs, ht]
    exact ⟨rfl, h⟩

protected theorem pure {a : α} {b : β} (h : ∀ s t, pre s t → post a b s t) :
    Lockstep failed pre (pure a) (pure b) post :=
  fun s t hst => h s t hst

protected theorem reject {error : SemanticError} {line : Line} (h : ∀ s t, pre s t → failed s t) :
    Lockstep failed pre (reject error line : Step σ α) (reject error line : Step τ β) post :=
  fun s t hst => ⟨rfl, h s t hst⟩

theorem bind_reject {error : SemanticError} {line : Line} {next : α' → Step σ α}
    {next' : β' → Step τ β} (h : ∀ s t, pre s t → failed s t) :
    Lockstep failed pre (Step.reject error line >>= next) (Step.reject error line >>= next') post :=
  fun s t hst => ⟨rfl, h s t hst⟩

protected theorem fault {f : Fault} (h : ∀ s t, pre s t → failed s t) :
    Lockstep failed pre (fault f : Step σ α) (fault f : Step τ β) post :=
  fun s t hst => ⟨rfl, h s t hst⟩

/-- The second halves run in lockstep from wherever the first halves end. -/
protected theorem bind {next : α → Step σ α'} {next' : β → Step τ β'}
    {post' : α' → β' → σ → τ → Prop} (h : Lockstep failed pre first second post)
    (hnext : ∀ a b, Lockstep failed (post a b) (next a) (next' b) post') :
    Lockstep failed pre (first >>= next) (second >>= next') post' := by
  intro s t hst
  rcases (h s t hst).cases with ⟨a, b, s', t', hs, ht, h⟩ | ⟨failure, s', t', hs, ht, h⟩
  · rw [runFrom_bind_of_ok hs, runFrom_bind_of_ok ht]
    exact hnext a b s' t' h
  · rw [runFrom_bind_of_error hs, runFrom_bind_of_error ht]
    exact ⟨rfl, h⟩

/-- Two steps without state that end the same, in front on both sides. -/
theorem bind_constant {step : Step σ α'} {step' : Step τ α'} {result : Except Failure α'}
    {next : α' → Step σ α} {next' : α' → Step τ β} (hstep : Constant step result)
    (hstep' : Constant step' result) (hfailed : ∀ s t, pre s t → failed s t)
    (hnext : ∀ a, result = .ok a → Lockstep failed pre (next a) (next' a) post) :
    Lockstep failed pre (step >>= next) (step' >>= next') post := by
  intro s t hst
  cases result with
  | error failure =>
    rw [runFrom_bind_of_error (hstep.runFrom_eq s), runFrom_bind_of_error (hstep'.runFrom_eq t)]
    exact ⟨rfl, hfailed s t hst⟩
  | ok a =>
    rw [runFrom_bind_of_ok (hstep.runFrom_eq s), runFrom_bind_of_ok (hstep'.runFrom_eq t)]
    exact hnext a rfl s t hst

/-- A fact that the precondition implies may be used to compare the steps. -/
theorem of_pre {p : Prop} (hp : ∀ s t, pre s t → p)
    (h : p → Lockstep failed pre first second post) : Lockstep failed pre first second post :=
  fun s t hst => h (hp s t hst) s t hst

end Lockstep

end Lcpl.Step
