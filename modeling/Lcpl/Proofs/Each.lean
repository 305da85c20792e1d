import Lcpl.Analysis.Signature

/-!
# Steps on the elements of a list

A step that runs on every element of a list does to each element what it does to it alone, up to the
first element at which it fails.

## Main definitions

* `Step.Ends` — what holds after a run on an item

## Main results

* `Step.eachFrom_cons_of_ok`, `Step.eachFrom_cons_of_error`, `Step.exists_of_eachFrom_cons_ok` — the
  first element
* `Step.map_eachFrom` — what no single step changes stays along the list
* `Step.forall_of_eachFrom_ok` — what each step establishes holds of the whole list in the end
* `Step.exists_of_eachFrom_ok`, `Step.exists_eachFrom_of_ok` — a run that ends well, by its steps
* `Step.eachFrom_invariant` — an invariant that speaks of the whole list at every position
* `Feature.runFrom_onMethod`, `Class.runFrom_eachFeature` — the same for the features of a class
-/

namespace Lcpl

variable {σ α β : Type}

namespace Step

variable {step : Nat → Step (σ × α) Unit} {k : Nat} {s s' : σ} {x x' : α} {xs ys : List α}

theorem eachFrom_cons_of_ok (h : (step k).runFrom (s, x) = (.ok (), s', x')) :
    eachFrom step k (x :: xs) s =
      ((eachFrom step (k + 1) xs s').1, (eachFrom step (k + 1) xs s').2.1,
        x' :: (eachFrom step (k + 1) xs s').2.2) := by
  simp only [eachFrom, h]

theorem eachFrom_cons_of_error {failure : Failure}
    (h : (step k).runFrom (s, x) = (.error failure, s', x')) :
    eachFrom step k (x :: xs) s = (.error failure, s', x' :: xs) := by
  simp only [eachFrom, h]

/-- A run that ends well has ended well on the first element, and on the rest behind it. -/
theorem exists_of_eachFrom_cons_ok (hrun : eachFrom step k (x :: xs) s = (.ok (), s', ys)) :
    ∃ t x' ys', (step k).runFrom (s, x) = (.ok (), t, x') ∧
      eachFrom step (k + 1) xs t = (.ok (), s', ys') ∧ ys = x' :: ys' := by
  rcases hx : (step k).runFrom (s, x) with ⟨failure | ⟨⟩, t, x'⟩
  · rw [eachFrom_cons_of_error hx] at hrun
    cases hrun
  · rw [eachFrom_cons_of_ok hx] at hrun
    rcases hrest : eachFrom step (k + 1) xs t with ⟨result, u, ys'⟩
    rw [hrest] at hrun
    obtain ⟨rfl, rfl, rfl⟩ := by simpa using hrun
    exact ⟨t, x', ys', rfl, hrest, rfl⟩

/-- What no single step changes of its element stays along the list. -/
theorem map_eachFrom (key : α → β)
    (hkey : ∀ k s x, key ((step k).runFrom (s, x)).2.2 = key x) (k : Nat) (s : σ) (xs : List α) :
    (eachFrom step k xs s).2.2.map key = xs.map key := by
  induction xs generalizing k s with
  | nil => rfl
  | cons x xs ih =>
    have hx := hkey k s x
    rcases hrun : (step k).runFrom (s, x) with ⟨failure | ⟨⟩, s', x'⟩
    · rw [hrun] at hx
      rw [eachFrom_cons_of_error hrun, List.map_cons, hx, List.map_cons]
    · rw [hrun] at hx
      rw [eachFrom_cons_of_ok hrun, List.map_cons, hx, ih, List.map_cons]

/-- Each step establishes `Q` of its element, and later steps change the state as `R` says, which
keeps `Q`. -/
theorem forall_of_eachFrom_ok {R : σ → σ → Prop} {Q : σ → Nat → α → Prop} (hrefl : ∀ s, R s s)
    (htrans : ∀ s t u, R s t → R t u → R s u)
    (hstep : ∀ k s x s' x', (step k).runFrom (s, x) = (.ok (), s', x') → R s s' ∧ Q s' k x')
    (hQ : ∀ s t k x, R s t → Q s k x → Q t k x)
    (hrun : eachFrom step k xs s = (.ok (), s', ys)) :
    R s s' ∧ ∀ i y, ys[i]? = some y → Q s' (k + i) y := by
  induction xs generalizing k s ys with
  | nil =>
    obtain ⟨rfl, rfl⟩ := by simpa [eachFrom] using hrun
    exact ⟨hrefl s, by simp⟩
  | cons x xs ih =>
    obtain ⟨t, x', zs, hx, hrest, rfl⟩ := exists_of_eachFrom_cons_ok hrun
    obtain ⟨hst, hx'⟩ := hstep k s x t x' hx
    obtain ⟨htu, hzs⟩ := ih hrest
    refine ⟨htrans s t s' hst htu, fun i y hy => ?_⟩
    cases i with
    | zero =>
      obtain rfl : x' = y := by simpa using hy
      exact hQ t s' k x' htu hx'
    | succ i =>
      rw [show k + (i + 1) = k + 1 + i by omega]
      exact hzs i y (by simpa using hy)

/-- In a run that ends well, the step has ended well on every element. -/
theorem exists_of_eachFrom_ok {i : Nat} (hrun : eachFrom step k xs s = (.ok (), s', ys))
    (hx : xs[i]? = some x) : ∃ t t' x', (step (k + i)).runFrom (t, x) = (.ok (), t', x') := by
  induction xs generalizing k s ys i with
  | nil => simp at hx
  | cons z xs ih =>
    obtain ⟨t, z', zs, hz, hrest, rfl⟩ := exists_of_eachFrom_cons_ok hrun
    cases i with
    | zero =>
      obtain rfl : z = x := by simpa using hx
      exact ⟨s, t, z', hz⟩
    | succ i =>
      rw [show k + (i + 1) = k + 1 + i by omega]
      exact ih hrest (by simpa using hx)

/-- Where the step ends well on every element and leaves it as it is, so does the run. -/
theorem exists_eachFrom_of_ok (h : ∀ i x s, xs[i]? = some x →
      ∃ s', (step (k + i)).runFrom (s, x) = (.ok (), s', x)) (s : σ) :
    ∃ s', eachFrom step k xs s = (.ok (), s', xs) := by
  induction xs generalizing k s with
  | nil => exact ⟨s, rfl⟩
  | cons x xs ih =>
    obtain ⟨t, ht⟩ := h 0 x s rfl
    rw [Nat.add_zero] at ht
    have hrest : ∀ i y s, xs[i]? = some y →
        ∃ s', (step (k + 1 + i)).runFrom (s, y) = (.ok (), s', y) := by
      intro i y s hy
      rw [show k + 1 + i = k + (i + 1) by omega]
      exact h (i + 1) y s hy
    obtain ⟨u, hu⟩ := ih hrest t
    exact ⟨u, by rw [eachFrom_cons_of_ok ht, hu]⟩

/-- A run on an item beside a state ends with `ok`, or it fails and ends with `failed`. -/
def Ends (ok : σ → α → Prop) (failed : Failure → σ → α → Prop) :
    Except Failure Unit × σ × α → Prop
  | (.ok (), s, x) => ok s x
  | (.error failure, s, x) => failed failure s x

theorem Ends.imp {ok ok' : σ → α → Prop} {failed : Failure → σ → α → Prop}
    {run : Except Failure Unit × σ × α} (h : Ends ok failed run) (hok : ∀ s x, ok s x → ok' s x) :
    Ends ok' failed run := by
  rcases run with ⟨failure | ⟨⟩, s, x⟩
  · exact h
  · exact hok s x h

/-- An invariant `I` that speaks of the whole list, and of how far the steps have come. The step at
each position keeps it, or fails and establishes `E`. -/
theorem eachFrom_invariant {I : Nat → σ → List α → Prop} {E : Failure → σ → List α → Prop}
    (hstep : ∀ j s ys x, I j s ys → ys[j]? = some x →
      Ends (fun s' x' => I (j + 1) s' (ys.set j x'))
        (fun failure s' x' => E failure s' (ys.set j x'))
        ((step j).runFrom (s, x)))
    (h : I 0 s xs) : Ends (I xs.length) E (eachFrom step 0 xs s) := by
  -- the elements in `front` have been handled
  have hfrom (front xs : List α) (s : σ) (h : I front.length s (front ++ xs)) :
      Ends (fun s' ys => I (front ++ xs).length s' (front ++ ys))
        (fun failure s' ys => E failure s' (front ++ ys)) (eachFrom step front.length xs s) := by
    induction xs generalizing front s with
    | nil => simpa [eachFrom, Ends] using h
    | cons x xs ih =>
      have hx := hstep front.length s (front ++ x :: xs) x h (by simp)
      rcases hrun : (step front.length).runFrom (s, x) with ⟨failure | ⟨⟩, s', x'⟩
      · rw [hrun] at hx
        rw [eachFrom_cons_of_error hrun]
        simpa [Ends] using hx
      · rw [hrun] at hx
        have hrest := ih (front ++ [x']) s' (by simpa [Ends] using hx)
        rw [show (front ++ [x']).length = front.length + 1 by simp] at hrest
        rw [eachFrom_cons_of_ok hrun]
        rcases hrun' : eachFrom step (front.length + 1) xs s' with ⟨failure | ⟨⟩, s'', ys⟩
        · rw [hrun'] at hrest
          simpa [Ends] using hrest
        · rw [hrun'] at hrest
          simpa [Ends] using hrest
  exact hfrom [] xs s h

end Step

/-! ### Features of a class -/

namespace Feature

theorem runFrom_onMethod (step : Step (σ × Method) Unit) (s : σ) (m : Method) :
    (onMethod step).runFrom (s, .method m) =
      ((step.runFrom (s, m)).1, (step.runFrom (s, m)).2.1, .method (step.runFrom (s, m)).2.2) :=
  rfl

@[simp] theorem runFrom_onMethod_attribute (step : Step (σ × Method) Unit) (s : σ)
    (a : Attribute) : (onMethod step).runFrom (s, .attribute a) = (.ok (), s, .attribute a) := rfl

theorem runFrom_onAttribute (step : Step (σ × Attribute) Unit) (s : σ) (a : Attribute) :
    (onAttribute step).runFrom (s, .attribute a) =
      ((step.runFrom (s, a)).1, (step.runFrom (s, a)).2.1, .attribute (step.runFrom (s, a)).2.2) :=
  rfl

@[simp] theorem runFrom_onAttribute_method (step : Step (σ × Attribute) Unit) (s : σ)
    (m : Method) : (onAttribute step).runFrom (s, .method m) = (.ok (), s, .method m) := rfl

/-- A pass over the methods leaves the attributes in their places. -/
theorem map_attribute?_onMethod (step : Step (σ × Method) Unit) (k : Nat) (features : List Feature)
    (s : σ) :
    (Step.eachFrom (fun _ => onMethod step) k features s).2.2.map Feature.attribute? =
      features.map Feature.attribute? :=
  Step.map_eachFrom Feature.attribute? (fun _ s f => by rcases f with m | a <;> rfl) k s features

/-- A pass over the attributes leaves the methods in their places. -/
theorem map_method?_onAttribute (step : Step (σ × Attribute) Unit) (k : Nat)
    (features : List Feature) (s : σ) :
    (Step.eachFrom (fun _ => onAttribute step) k features s).2.2.map Feature.method? =
      features.map Feature.method? :=
  Step.map_eachFrom Feature.method? (fun _ s f => by rcases f with m | a <;> rfl) k s features

end Feature

theorem Class.runFrom_eachFeature (step : Step (σ × Feature) Unit) (s : σ) (c : Class) :
    (Class.eachFeature step).runFrom (s, c) =
      ((Step.eachFrom (fun _ => step) 0 c.features s).1,
        (Step.eachFrom (fun _ => step) 0 c.features s).2.1,
        { c with features := (Step.eachFrom (fun _ => step) 0 c.features s).2.2 }) := rfl

end Lcpl
