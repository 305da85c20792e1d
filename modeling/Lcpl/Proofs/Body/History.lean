import Lcpl.Proofs.Body.Nesting

/-!
# Scopes by their history

The scopes in force are kept as a stack. What they answer can be said without it, by looking at the
history of operations only: the visible definition of a name is the latest one that was not made in
a scope that has been left since, and a definition replaces the latest one that was made in the very
same scope.

The proofs go along the history. A scope that is left takes all that was done in it away, so that
the scopes are again what they were when it was entered.

## Main definitions

* `Scopes.perform`, `Scopes.run`, `Scopes.after` — one operation with its answer, several, and a
  history
* `Scopes.outermost` — the scopes without the innermost ones

## Main results

* `Scopes.leave?_run_enter` — what is done inside a scope is undone when the scope is left
* `Scopes.depth_after_eq_zero_iff` — only the root is in force where no scope is the innermost one
* `Scopes.latest_find?`, `Scopes.latest_own?`, `Scopes.depth_after` — the answers one by one
* `Scopes.answers_by_history` — what the scopes answer after any history
-/

namespace Lcpl.Scopes

variable {κ ν : Type} {scopes outer : Scopes κ ν} {n : Nat}

/-! ### The outer scopes -/

theorem depth_of_leave? (h : scopes.leave? = some outer) : scopes.depth = outer.depth + 1 := by
  obtain ⟨root, inner⟩ := scopes
  cases inner with
  | nil => cases h
  | cons scope inner =>
    obtain rfl := Option.some_inj.mp h
    rfl

/-- The root and the `n` outermost of the other scopes. -/
def outermost (n : Nat) (scopes : Scopes κ ν) : Scopes κ ν :=
  { scopes with inner := scopes.inner.drop (scopes.depth - n) }

theorem leave?_eq_outermost (h : scopes.depth = n + 1) :
    scopes.leave? = some (scopes.outermost n) := by
  obtain ⟨root, inner⟩ := scopes
  cases inner with
  | nil => cases h
  | cons scope inner => simp [leave?, outermost, h]

theorem outermost_enter : scopes.enter.outermost scopes.depth = scopes := by
  obtain ⟨root, inner⟩ := scopes
  simp [outermost, enter, depth]

/-! ### Performing operations -/

/-- What an operation answers. -/
inductive Answer (ν : Type) where
  /-- A scope was entered or left. -/
  | done
  /-- The root scope cannot be left. -/
  | refused
  /-- A name was defined, and its definition in the same scope was replaced. -/
  | replaced (old : Option ν)
deriving DecidableEq, Repr

variable [DecidableEq κ]

/-- Performs an operation. -/
def perform (scopes : Scopes κ ν) : Operation κ ν → Answer ν × Scopes κ ν
  | .enter => (.done, scopes.enter)
  | .leave =>
      match scopes.leave? with
      | some outer => (.done, outer)
      | none => (.refused, scopes)
  | .define name value => (.replaced (scopes.own? name), scopes.define name value)

/-- The scopes after some operations. -/
def run (scopes : Scopes κ ν) (ops : List (Operation κ ν)) : Scopes κ ν :=
  ops.foldl (fun scopes op => (scopes.perform op).2) scopes

/-- The scopes after a history that begins with the root scope alone. -/
def after (history : List (Operation κ ν)) : Scopes κ ν := run empty history

variable {history more inner ops : List (Operation κ ν)} {name other : κ} {value : ν} {i k : Nat}

theorem perform_leave_of_some (h : scopes.leave? = some outer) :
    scopes.perform .leave = (.done, outer) := by
  rw [perform, h]

theorem perform_leave_of_root (h : scopes.depth = 0) :
    scopes.perform .leave = (.refused, scopes) := by
  rw [perform, leave?_eq_none_iff.mpr h]

theorem perform_leave_eq_refused_iff :
    (scopes.perform .leave).1 = .refused ↔ scopes.depth = 0 := by
  rw [← leave?_eq_none_iff]
  cases h : scopes.leave? with
  | none => simp [perform, h]
  | some outer => simp [perform_leave_of_some h]

theorem own?_enter (name : κ) : scopes.enter.own? name = none := rfl

theorem own?_define : (scopes.define name value).own? other =
    if other == name then some value else scopes.own? other := by
  obtain ⟨root, inner⟩ := scopes
  cases inner with
  | nil => cases hn : other == name <;> simp [define, own?, current, List.lookup_cons, hn]
  | cons scope inner =>
    cases hn : other == name <;> simp [define, own?, current, List.lookup_cons, hn]

/-! ### Runs -/

@[simp] theorem run_nil : scopes.run [] = scopes := rfl

@[simp] theorem run_cons {op : Operation κ ν} :
    scopes.run (op :: ops) = (scopes.perform op).2.run ops := rfl

@[simp] theorem run_append : scopes.run (ops ++ more) = (scopes.run ops).run more :=
  List.foldl_append

theorem after_append : after (history ++ more) = (after history).run more := run_append

/-- Where not more scopes are left than entered, each of them counts. -/
theorem depth_run (scopes : Scopes κ ν) (h : Rising ops) :
    ((scopes.run ops).depth : Int) = scopes.depth + level ops ops.length := by
  induction ops using List.reverseRecOn with
  | nil => simp
  | append_singleton ops op ih =>
    have ih := ih h.of_append
    rw [run_append, List.length_append, level_append, run_cons, run_nil]
    cases op with
    | enter =>
      rw [perform, depth_enter]
      simp [level, Operation.rise]
      omega
    | define name value =>
      rw [perform, depth_define, ih]
      simp [level, Operation.rise]
    | leave =>
      -- there is a scope to leave, since the level does not sink below zero
      have hpos : 0 < level (ops ++ [Operation.leave]) ops.length := h.level_pos (by simp)
      rw [level_append_of_le (Nat.le_refl _)] at hpos
      cases hleave : (scopes.run ops).leave? with
      | none =>
        have := leave?_eq_none_iff.mp hleave
        omega
      | some outer =>
        have := depth_of_leave? hleave
        rw [perform_leave_of_some hleave]
        simp [level, Operation.rise]
        omega

/-- An operation in a scope further inside leaves the outer scopes as they are. -/
theorem outermost_perform (h : n < scopes.depth) (op : Operation κ ν) :
    (scopes.perform op).2.outermost n = scopes.outermost n := by
  obtain ⟨root, inner⟩ := scopes
  cases inner with
  | nil => simp [depth] at h
  | cons scope inner =>
    have hn : n ≤ inner.length := Nat.le_of_lt_succ h
    cases op with
    | enter =>
      simp [perform, enter, outermost, depth, Nat.succ_sub hn, Nat.succ_sub (Nat.le_succ_of_le hn)]
    | leave => simp [perform, leave?, outermost, depth, Nat.succ_sub hn]
    | define name value => simp [perform, define, outermost, depth, Nat.succ_sub hn]

theorem outermost_run (h : ∀ k < ops.length, n < (scopes.run (ops.take k)).depth) :
    (scopes.run ops).outermost n = scopes.outermost n := by
  induction ops using List.reverseRecOn with
  | nil => rfl
  | append_singleton ops op ih =>
    rw [List.length_append, List.length_singleton] at h
    have hlast := h ops.length (Nat.lt_succ_self _)
    rw [List.take_left] at hlast
    rw [run_append, run_cons, run_nil, outermost_perform hlast]
    refine ih fun k hk => ?_
    have := h k (Nat.lt_succ_of_lt hk)
    rwa [List.take_append_of_le_length hk.le] at this

/-- What is done inside a scope is undone when the scope is left, as long as nothing else is
left. -/
theorem leave?_run_enter
    (h : ∀ k ≤ inner.length, scopes.depth < (scopes.enter.run (inner.take k)).depth)
    (hend : (scopes.enter.run inner).depth = scopes.depth + 1) :
    (scopes.enter.run inner).leave? = some scopes := by
  rw [leave?_eq_outermost hend, outermost_run fun k hk => h k hk.le, outermost_enter]

/-- A scope from its entry to its end changes nothing. -/
theorem run_closed (h : Balanced inner) : scopes.run (closed inner) = scopes := by
  have hdepth (k : Nat) : scopes.depth < (scopes.enter.run (inner.take k)).depth := by
    have hrising := h.rising.take k
    have := depth_run scopes.enter hrising
    have := hrising (inner.take k).length
    rw [depth_enter] at *
    omega
  have hend : (scopes.enter.run inner).depth = scopes.depth + 1 := by
    have := depth_run scopes.enter h.rising
    rw [h.level_eq, depth_enter] at this
    omega
  have hleave := perform_leave_of_some (leave?_run_enter (fun k _ => hdepth k) hend)
  calc scopes.run (closed inner)
      = ((scopes.enter.run inner).perform .leave).2 := by rw [closed, run_append]; rfl
    _ = scopes := by rw [hleave]

/-! ### Histories -/

@[simp] theorem after_enter : after (history ++ [.enter]) = (after history).enter := after_append

@[simp] theorem after_define :
    after (history ++ [.define name value]) = (after history).define name value := after_append

theorem after_refused (h : (after history).depth = 0) :
    after (history ++ [.leave]) = after history := by
  rw [after_append, run_cons, perform_leave_of_root h, run_nil]

theorem after_closed (h : Balanced inner) : after (history ++ closed inner) = after history := by
  rw [after_append, run_closed h]

/-- Inside a scope, something other than the root is in force. -/
theorem depth_after_pos (history : List (Operation κ ν)) (h : Rising inner) :
    0 < (after (history ++ .enter :: inner)).depth := by
  have hafter : after (history ++ .enter :: inner) = (after history).enter.run inner := after_append
  have hdepth := depth_run (after history).enter h
  have := h inner.length
  rw [depth_enter] at hdepth
  rw [hafter]
  omega

/-- Only the root is in force where no scope is the innermost one. -/
theorem depth_after_eq_zero_iff (history : List (Operation κ ν)) :
    (after history).depth = 0 ↔ ∀ s, ¬ Inside history s history.length := by
  induction history using history_induction with
  | nil => exact iff_of_true rfl fun s h => Nat.not_lt_zero s h.lt
  | enter history _ =>
    rw [after_enter, depth_enter]
    exact iff_of_false (Nat.succ_ne_zero _) fun hnone => hnone _ (inside_enter history)
  | define history name value ih =>
    rw [after_define, depth_define, ih]
    exact forall_congr' fun s => not_congr (inside_append_balanced_iff (balanced_define ..)).symm
  | refused history hroot ih =>
    have hzero := ih.mpr hroot
    rw [after_refused hzero]
    refine iff_of_true hzero fun s hs => ?_
    -- a scope that goes on behind the failed attempt would be in force before it
    obtain ⟨outer, inner, hsplit, hinner⟩ := hs.exists_eq_append
    rcases List.eq_nil_or_concat' inner with rfl | ⟨inner, last, rfl⟩
    · cases (List.append_inj' hsplit rfl).2
    · rw [← List.cons_append, ← List.append_assoc] at hsplit
      obtain rfl := (List.append_inj' hsplit rfl).1
      exact (depth_after_pos outer hinner.rising.of_append).ne' hzero
  | closed history inner hinner ih =>
    rw [after_closed hinner, ih]
    exact forall_congr' fun s => not_congr (inside_append_balanced_iff hinner.closed).symm

/-- Whatever is done inside a scope from its entry to its end belongs to a scope that has been
left. -/
theorem exists_left_of_closed (history : List (Operation κ ν)) (h : Balanced inner)
    (hk : k ≤ inner.length) :
    ∃ s, history.length ≤ s ∧ Inside (history ++ closed inner) s (history.length + (k + 1)) ∧
      Left (history ++ closed inner) s := by
  have hsplit : history ++ closed inner =
      (history ++ .enter :: inner.take k) ++ (inner.drop k ++ [.leave]) := by
    rw [List.append_assoc, List.cons_append, ← List.append_assoc, List.take_append_drop, closed,
      List.cons_append]
  have hlength : (history ++ .enter :: inner.take k).length = history.length + (k + 1) := by
    simp [hk]
  -- before the scope is left some scope is in force, and it cannot be an older one
  have hpos := (depth_after_pos history (h.rising.take k)).ne'
  rw [Ne, depth_after_eq_zero_iff, not_forall_not, hlength] at hpos
  obtain ⟨s, hs⟩ := hpos
  have hinside : Inside (history ++ closed inner) s (history.length + (k + 1)) := by
    rw [hsplit]
    exact (inside_append_iff hlength.ge).mpr hs
  have hge : history.length ≤ s := by
    by_contra hlt
    have := h.rising.level_closed_pos hk
    have := hinside.level_le_zero (Nat.lt_of_not_le hlt)
    omega
  obtain ⟨q, rfl⟩ := Nat.exists_eq_add_of_le hge
  refine ⟨_, hge, hinside, (h.closed.left ?_).shift⟩
  have henter := hinside.enter
  rwa [List.getElem?_append_right hge, Nat.add_sub_cancel_left] at henter

/-! ### Visible definitions -/

/-- A definition inside a scope from its entry to its end belongs to a scope that has been left. -/
theorem exists_left_of_define (h : Balanced inner) (hi : history.length ≤ i)
    (hdefine : (history ++ closed inner)[i]? = some (.define name value)) :
    ∃ s, history.length ≤ s ∧ Inside (history ++ closed inner) s i ∧
      Left (history ++ closed inner) s := by
  obtain ⟨q, rfl⟩ := Nat.exists_eq_add_of_le hi
  rw [List.getElem?_append_right hi, Nat.add_sub_cancel_left] at hdefine
  cases q with
  | zero => cases hdefine
  | succ k =>
    have hk : k ≤ inner.length := by
      have := lt_length_of_define hdefine
      simp only [closed, List.length_append, List.length_cons, List.length_nil] at this
      omega
    exact exists_left_of_closed history h hk

/-- The visible definition of a name is the latest one whose scope has not been left. -/
theorem latest_find? (history : List (Operation κ ν)) (name : κ) :
    Latest (Live history name) ((after history).find? name) := by
  induction history using history_induction with
  | nil =>
    intro i value h
    cases h.1
  | enter history ih =>
    rw [after_enter, find?_enter]
    refine ih.congr (live_append_iff (fun s hs => left_append_iff (rising_singleton ?_) hs) ?_)
    · exact Int.one_nonneg
    · intro i value hi h
      simpa using mem_of_length_le hi h.1
  | define history other value ih =>
    rw [after_define, find?_define]
    split
    · next hname =>
      obtain rfl := beq_iff_eq.mp hname
      exact ⟨history.length, live_define history name value, fun i _ h => le_length_of_concat h.1⟩
    · next hname =>
      refine ih.congr (live_append_iff
        (fun s hs => left_append_iff (balanced_define other value).rising hs) ?_)
      intro i value hi h
      have := mem_of_length_le hi h.1
      simp_all
  | refused history hroot ih =>
    rw [after_refused ((depth_after_eq_zero_iff history).mpr hroot)]
    refine ih.congr (live_append_iff (fun s _ => left_refused_iff hroot) ?_)
    intro i value hi h
    simpa using mem_of_length_le hi h.1
  | closed history inner hinner ih =>
    rw [after_closed hinner]
    exact ih.congr (live_append_iff (fun s hs => left_append_iff hinner.closed.rising hs)
      fun i value hi h => by
        -- whatever is defined in between is gone with its scope
        obtain ⟨s, -, hinside, hleft⟩ := exists_left_of_define hinner hi h.1
        exact h.2 s hinside hleft)

/-! ### Definitions in the current scope -/

/-- The definition of a name in the innermost scope is the latest one that was made there. -/
theorem latest_own? (history : List (Operation κ ν)) (name : κ) :
    Latest (Own history name) ((after history).own? name) := by
  induction history using history_induction with
  | nil =>
    intro i value h
    cases h.1
  | enter history _ =>
    rw [after_enter, own?_enter]
    rintro i value ⟨hdefine, hscope⟩
    -- nothing has been done in the new scope
    have hlt := ((hscope _).mpr (inside_enter history)).lt
    have := mem_of_length_le hlt.le hdefine
    simp at this
  | define history other value ih =>
    rw [after_define, own?_define]
    have hend (s : Nat) : Inside (history ++ [.define other value]) s _ ↔ Inside history s _ :=
      inside_append_balanced_iff (balanced_define other value)
    split
    · next hname =>
      obtain rfl := beq_iff_eq.mp hname
      refine ⟨history.length, ⟨by simp, fun s => ?_⟩, fun i _ h => le_length_of_concat h.1⟩
      rw [hend, inside_append_iff (Nat.le_refl _)]
    · next hname =>
      refine ih.congr (own_append_iff hend fun i value hi h => ?_)
      have := mem_of_length_le hi h.1
      simp_all
  | refused history hroot ih =>
    have hzero := (depth_after_eq_zero_iff history).mpr hroot
    have hroot' := (depth_after_eq_zero_iff (history ++ [.leave])).mp (by rwa [after_refused hzero])
    rw [after_refused hzero]
    refine ih.congr
      (own_append_iff (fun s => iff_of_false (hroot' s) (hroot s)) fun i value hi h => ?_)
    have := mem_of_length_le hi h.1
    simp at this
  | closed history inner hinner ih =>
    rw [after_closed hinner]
    have hend (s : Nat) : Inside (history ++ closed inner) s _ ↔ Inside history s _ :=
      inside_append_balanced_iff hinner.closed
    refine ih.congr (own_append_iff hend fun i value hi h => ?_)
    -- its scope was entered behind the history, so it is not the innermost one at the end
    obtain ⟨s, hs, hinside, -⟩ := exists_left_of_define hinner hi h.1
    exact Nat.not_le.mpr ((hend s).mp ((h.2 s).mp hinside)).lt hs

/-! ### Depth -/

/-- The depth is the number of scopes that have been entered and not left. -/
theorem depth_after (history : List (Operation κ ν)) :
    (after history).depth = (unclosed history).ncard := by
  induction history using history_induction with
  | nil =>
    have hempty : unclosed ([] : List (Operation κ ν)) = ∅ :=
      Set.eq_empty_iff_forall_notMem.mpr fun s h => by cases h.1
    rw [hempty, Set.ncard_empty]
    rfl
  | enter history ih =>
    have hnew : history.length ∉ unclosed history := fun h =>
      (List.getElem?_eq_some_iff.mp h.1).1.false
    rw [after_enter, depth_enter, ih, unclosed_enter,
      Set.ncard_insert_of_notMem hnew (finite_unclosed history)]
  | define history name value ih =>
    have hrising := (balanced_define name value).rising
    rw [after_define, depth_define, ih, unclosed_append fun s hs => left_append_iff hrising hs]
    intro s hs henter
    simpa using mem_of_length_le hs henter
  | refused history hroot ih =>
    -- outside of all scopes nothing is left, so no scope is closed by it
    rw [after_refused ((depth_after_eq_zero_iff history).mpr hroot), ih,
      unclosed_append fun s _ => left_refused_iff hroot]
    intro s hs henter
    simpa using mem_of_length_le hs henter
  | closed history inner hinner ih =>
    rw [after_closed hinner, ih,
      unclosed_append fun s hs => left_append_iff hinner.closed.rising hs]
    intro s hs henter
    obtain ⟨q, rfl⟩ := Nat.exists_eq_add_of_le hs
    rw [List.getElem?_append_right hs, Nat.add_sub_cancel_left] at henter
    exact (hinner.closed.left henter).shift

/-! ### All answers -/

/-- What the scopes answer after any history, failed attempts to leave the root scope included. The
visible definition of a name is the latest one that was not made in a scope left since; to define a
name again replaces the latest definition made in the very same scope; the depth is the number of
scopes entered and not yet left; the attempt to leave fails at depth zero only, and changes nothing
then. And a scope, with all that is done inside of it, leaves no trace once it has been left. -/
theorem answers_by_history (history : List (Operation κ ν)) :
    (∀ name, Latest (Live history name) ((after history).find? name)) ∧
    (∀ name value, ∃ old, ((after history).perform (.define name value)).1 = .replaced old ∧
      Latest (Own history name) old) ∧
    (after history).depth = (unclosed history).ncard ∧
    (((after history).perform .leave).1 = .refused ↔ (after history).depth = 0) ∧
    ((after history).depth = 0 → ((after history).perform .leave).2 = after history) ∧
    ∀ inner,
      (∀ k ≤ inner.length,
        (after history).depth + 1 ≤ (after (history ++ .enter :: inner.take k)).depth) →
      (after (history ++ .enter :: inner)).depth = (after history).depth + 1 →
      ∀ name, (after (history ++ closed inner)).find? name = (after history).find? name := by
  refine ⟨latest_find? history, fun name _ => ⟨_, rfl, latest_own? history name⟩,
    depth_after history, perform_leave_eq_refused_iff,
    fun hzero => by rw [perform_leave_of_root hzero], ?_⟩
  intro inner habove hend name
  have henter (ops : List (Operation κ ν)) :
      after (history ++ .enter :: ops) = (after history).enter.run ops := after_append
  simp only [henter] at habove hend
  have hleave := perform_leave_of_some (leave?_run_enter habove hend)
  have hafter : after (history ++ closed inner) = after history := by
    rw [closed, ← List.append_assoc, after_append, henter, run_cons, hleave, run_nil]
  rw [hafter]

/-- In the scope the name is defined anew, and another scope is entered and left. -/
theorem answers_by_history_hidden :
    (after [Operation.define "x" 1]).depth = 0 ∧
    (∀ k ≤ 3, (after [Operation.define "x" 1]).depth + 1 ≤
      (after ([.define "x" 1] ++ .enter :: [.define "x" 2, .enter, .leave].take k)).depth) ∧
    (after ([.define "x" 1] ++ .enter :: [.define "x" 2, .enter, .leave])).depth =
      (after [Operation.define "x" 1]).depth + 1 ∧
    (after ([.define "x" 1] ++ closed [.define "x" 2, .enter, .leave])).find? "x" =
      (after [Operation.define "x" 1]).find? "x" := by
  refine ⟨by decide, by decide, by decide, ?_⟩
  exact (answers_by_history [Operation.define "x" 1]).2.2.2.2.2 [.define "x" 2, .enter, .leave]
    (by decide) (by decide) "x"

end Lcpl.Scopes
