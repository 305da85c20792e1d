import Mathlib.Data.List.Basic
import Mathlib.Data.Nat.Find
import Mathlib.Data.Set.Card
import Mathlib.Order.Basic
import Lcpl.Body.Scopes

/-!
# How operations on scopes nest

A history is a list of operations on scopes: scopes are entered and left, and names are defined.
Which scope an operation belongs to can be read off the history alone, as brackets are matched: a
scope goes from where it is entered to where it is left, and what is entered in between is left in
between.

A scope is known by the position at which it was entered. The root scope has none: an operation
belongs to it if it belongs to no other. To leave the root scope is an operation too, and matches
nothing.

## Main definitions

* `Scopes.Operation` — an operation on scopes
* `Scopes.level`, `Scopes.Rising`, `Scopes.Balanced` — how many more scopes are entered than left
* `Scopes.closed` — a scope from its entry to its end
* `Scopes.Inside` — a scope is the innermost one at some point of the history
* `Scopes.Left`, `Scopes.unclosed` — a scope has been left, or is still in force
* `Scopes.Live`, `Scopes.Own` — definitions whose scope has not been left, or is the innermost one
* `Scopes.Latest` — the latest of some definitions

## Main results

* `Scopes.Inside.unique` — there is only one innermost scope
* `Scopes.inside_append_balanced_iff` — balanced operations end in the scope where they begin
* `Scopes.left_append_iff` — operations that do not sink below their start leave no scope entered
  before
* `Scopes.Balanced.left` — balanced operations leave each scope that they enter
* `Scopes.history_induction` — induction on histories, in which a scope from its entry to its end is
  one step
-/

namespace Lcpl.Scopes

variable {κ ν : Type}

/-- An operation on scopes. -/
inductive Operation (κ ν : Type) where
  | enter
  | leave
  | define (name : κ) (value : ν)
deriving DecidableEq, Repr

/-- How many more scopes an operation enters than it leaves. -/
def Operation.rise : Operation κ ν → Int
  | enter => 1
  | leave => -1
  | define _ _ => 0

/-- How many more scopes are entered than left by the first `i` operations. -/
def level : List (Operation κ ν) → Nat → Int
  | op :: history, i + 1 => op.rise + level history i
  | _, _ => 0

/-- Nowhere on the way have more scopes been left than entered. -/
def Rising (ops : List (Operation κ ν)) : Prop := ∀ k, 0 ≤ level ops k

/-- As many scopes are left as entered, and nowhere on the way have more been left. -/
structure Balanced (ops : List (Operation κ ν)) : Prop where
  level_eq : level ops ops.length = 0
  rising : Rising ops

/-- A scope from its entry to its end. -/
def closed (inner : List (Operation κ ν)) : List (Operation κ ν) := .enter :: inner ++ [.leave]

/-- After the first `i` operations of the history, the scope entered at `s` is the innermost one:
since then as many scopes have been left as entered, and nowhere on the way more. -/
structure Inside (history : List (Operation κ ν)) (s i : Nat) : Prop where
  enter : history[s]? = some .enter
  lt : s < i
  level_eq : level history i = level history (s + 1)
  le_level : ∀ k, s < k → k ≤ i → level history (s + 1) ≤ level history k

/-- The scope entered at `s` has been left. -/
def Left (history : List (Operation κ ν)) (s : Nat) : Prop :=
  ∃ j, history[j]? = some .leave ∧ Inside history s j

/-- The scopes that have been entered and not left. -/
def unclosed (history : List (Operation κ ν)) : Set Nat :=
  {s | history[s]? = some .enter ∧ ¬ Left history s}

/-- At position `i` of the history the name is defined, and the scope of this definition has not
been left since. -/
def Live (history : List (Operation κ ν)) (name : κ) (i : Nat) (value : ν) : Prop :=
  history[i]? = some (.define name value) ∧ ∀ s, Inside history s i → ¬ Left history s

/-- At position `i` of the history the name is defined, in the scope that is the innermost one at
the end of the history. -/
def Own (history : List (Operation κ ν)) (name : κ) (i : Nat) (value : ν) : Prop :=
  history[i]? = some (.define name value) ∧
    ∀ s, Inside history s i ↔ Inside history s history.length

/-- Of the definitions `made`, by their positions, the answer is the latest one. -/
def Latest (made : Nat → ν → Prop) : Option ν → Prop
  | some value => ∃ i, made i value ∧ ∀ j other, made j other → j ≤ i
  | none => ∀ i value, ¬ made i value

variable {ops history more inner : List (Operation κ ν)} {op : Operation κ ν} {s t i j k : Nat}
variable {name : κ} {value : ν}

/-! ### Levels -/

@[simp] theorem level_zero (history : List (Operation κ ν)) : level history 0 = 0 := by
  cases history <;> rfl

@[simp] theorem level_cons_succ (op : Operation κ ν) (history : List (Operation κ ν)) (i : Nat) :
    level (op :: history) (i + 1) = op.rise + level history i := rfl

theorem level_succ (h : history[i]? = some op) :
    level history (i + 1) = level history i + op.rise := by
  induction history generalizing i with
  | nil => cases h
  | cons first history ih =>
    cases i with
    | zero =>
      obtain rfl := Option.some_inj.mp h
      simp
    | succ i => rw [level_cons_succ, level_cons_succ, ih h, Int.add_assoc]

theorem level_append_of_le (h : i ≤ history.length) :
    level (history ++ more) i = level history i := by
  induction history generalizing i with
  | nil =>
    obtain rfl := Nat.le_zero.mp h
    simp
  | cons first history ih =>
    cases i with
    | zero => simp
    | succ i =>
      rw [List.cons_append, level_cons_succ, level_cons_succ, ih (Nat.le_of_succ_le_succ h)]

theorem level_add (history : List (Operation κ ν)) (s k : Nat) :
    level history (s + k) = level history s + level (history.drop s) k := by
  induction history generalizing s with
  | nil => cases k <;> simp [level]
  | cons first history ih =>
    cases s with
    | zero => simp
    | succ s =>
      rw [Nat.succ_add, level_cons_succ, level_cons_succ, ih, List.drop_succ_cons, Int.add_assoc]

theorem level_append (history more : List (Operation κ ν)) (k : Nat) :
    level (history ++ more) (history.length + k) = level history history.length + level more k := by
  rw [level_add, level_append_of_le (Nat.le_refl _), List.drop_left]

/-- Beyond the end of the history nothing changes. -/
theorem level_eq_of_length_le (h : history.length ≤ i) :
    level history i = level history history.length := by
  obtain ⟨k, rfl⟩ := Nat.exists_eq_add_of_le h
  rw [level_add, List.drop_length]
  cases k <;> simp [level]

/-! ### Rising and balanced operations -/

theorem Rising.level_pos (h : Rising ops) (hleave : ops[k]? = some .leave) : 0 < level ops k := by
  have := h (k + 1)
  rw [level_succ hleave, Operation.rise] at this
  omega

theorem Rising.of_append (h : Rising (ops ++ more)) : Rising ops := by
  intro k
  rcases Nat.le_total k ops.length with hk | hk
  · have := h k
    rwa [level_append_of_le hk] at this
  · have := h ops.length
    rw [level_append_of_le (Nat.le_refl _)] at this
    rwa [level_eq_of_length_le hk]

theorem Rising.take (h : Rising ops) (k : Nat) : Rising (ops.take k) := by
  rw [← List.take_append_drop k ops] at h
  exact h.of_append

theorem rising_singleton (h : 0 ≤ op.rise) : Rising [op] := by
  intro k
  cases k with
  | zero => simp
  | succ k => simpa [level] using h

theorem balanced_define (name : κ) (value : ν) : Balanced [Operation.define name value] where
  level_eq := rfl
  rising := rising_singleton (Int.le_refl 0)

/-- What is inside a scope, with the entry and the end of the scope. -/
theorem Balanced.closed (h : Balanced inner) : Balanced (closed inner) where
  level_eq := by
    rw [Scopes.closed, List.length_append, level_append]
    have := h.level_eq
    simp [level, Operation.rise, this]
  rising := by
    intro k
    rw [Scopes.closed]
    -- up to its end the scope is one level higher than `inner` alone
    rcases Nat.le_total k (.enter :: inner : List (Operation κ ν)).length with hk | hk
    · rw [level_append_of_le hk]
      cases k with
      | zero => simp
      | succ k =>
        have := h.rising k
        rw [level_cons_succ, Operation.rise]
        omega
    · obtain ⟨j, rfl⟩ := Nat.exists_eq_add_of_le hk
      rw [level_append, List.length_cons, level_cons_succ, h.level_eq, Operation.rise]
      cases j <;> simp [level, Operation.rise]

/-- Inside a scope the level is higher than outside. -/
theorem Rising.level_closed_pos (h : Rising inner) (hk : k ≤ inner.length) :
    0 < level (Scopes.closed inner) (k + 1) := by
  have := h k
  rw [Scopes.closed, level_append_of_le (Nat.succ_le_succ hk), level_cons_succ, Operation.rise]
  omega

/-! ### The innermost scope -/

theorem Inside.level_enter (h : Inside history s i) :
    level history i = level history s + 1 := by
  rw [h.level_eq, level_succ h.enter, Operation.rise]

/-- There is only one innermost scope: inside an inner one, the level is higher. -/
theorem Inside.unique (hs : Inside history s i) (ht : Inside history t i) : s = t := by
  have hlevel := hs.level_eq
  have hlevel' := ht.level_eq
  have henter := hs.level_enter
  have henter' := ht.level_enter
  rcases Nat.lt_trichotomy s t with hlt | heq | hlt
  · have := hs.le_level t hlt (Nat.le_of_lt ht.lt)
    omega
  · exact heq
  · have := ht.le_level s hlt (Nat.le_of_lt hs.lt)
    omega

/-- A scope that has been left is not entered again. -/
theorem Inside.le_of_leave (h : Inside history s i) (hleave : history[j]? = some .leave)
    (hj : Inside history s j) : i ≤ j := by
  by_contra hlt
  have := h.le_level (j + 1) (Nat.lt_succ_of_lt hj.lt) (Nat.lt_of_not_le hlt)
  rw [level_succ hleave, hj.level_eq, Operation.rise] at this
  omega

/-- The innermost scope depends on what was done before only. -/
theorem inside_append_iff (h : i ≤ history.length) :
    Inside (history ++ more) s i ↔ Inside history s i := by
  constructor
  · rintro ⟨henter, hlt, hlevel, hle⟩
    have hs : s < history.length := hlt.trans_le h
    rw [level_append_of_le h, level_append_of_le hs] at hlevel
    refine ⟨by rwa [List.getElem?_append_left hs] at henter, hlt, hlevel, fun k hk hki => ?_⟩
    have := hle k hk hki
    rwa [level_append_of_le (hki.trans h), level_append_of_le hs] at this
  · rintro ⟨henter, hlt, hlevel, hle⟩
    have hs : s < history.length := hlt.trans_le h
    refine ⟨by rwa [List.getElem?_append_left hs], hlt, ?_, fun k hk hki => ?_⟩
    · rw [level_append_of_le h, level_append_of_le hs, hlevel]
    · rw [level_append_of_le (hki.trans h), level_append_of_le hs]
      exact hle k hk hki

/-- Above the level at which they begin, further operations are inside no scope that was entered
before. -/
theorem Inside.level_le_zero (h : Inside (history ++ more) s (history.length + k))
    (hs : s < history.length) : level more k ≤ 0 := by
  have hlevel := h.level_eq
  have hle := h.le_level history.length hs (Nat.le_add_right ..)
  rw [level_append] at hlevel
  rw [level_append_of_le (Nat.le_refl _)] at hle
  omega

/-- Balanced operations end in the scope where they begin. -/
theorem inside_append_balanced_iff (h : Balanced more) :
    Inside (history ++ more) s (history ++ more).length ↔ Inside history s history.length := by
  rw [List.length_append]
  have hend : level (history ++ more) (history.length + more.length) =
      level history history.length := by
    rw [level_append, h.level_eq, Int.add_zero]
  constructor
  · intro hinside
    have hs : s < history.length := by
      by_contra hge
      -- a scope that they enter themselves is on a higher level than their end
      obtain ⟨q, rfl⟩ := Nat.exists_eq_add_of_le (Nat.le_of_not_lt hge)
      have hlevel := hinside.level_enter
      rw [hend, level_append] at hlevel
      have := h.rising q
      omega
    have hlevel := hinside.level_eq
    rw [hend, level_append_of_le hs] at hlevel
    refine ⟨?_, hs, hlevel, fun k hk hki => ?_⟩
    · rw [← hinside.enter, List.getElem?_append_left hs]
    · have := hinside.le_level k hk (hki.trans (Nat.le_add_right ..))
      rwa [level_append_of_le hki, level_append_of_le hs] at this
  · intro hinside
    have hs := hinside.lt
    have hlevel := hinside.level_eq
    refine ⟨?_, Nat.lt_add_right _ hs, ?_, fun k hk hki => ?_⟩
    · rw [List.getElem?_append_left hs, hinside.enter]
    · rw [hend, hlevel, level_append_of_le hs]
    · rw [level_append_of_le (i := s + 1) hs]
      rcases Nat.le_total k history.length with hle | hge
      · rw [level_append_of_le hle]
        exact hinside.le_level k hk hle
      · obtain ⟨j, rfl⟩ := Nat.exists_eq_add_of_le hge
        rw [level_append]
        have := h.rising j
        omega

/-- A new scope is the innermost one. -/
theorem inside_enter (history : List (Operation κ ν)) :
    Inside (history ++ [Operation.enter]) history.length (history ++ [Operation.enter]).length := by
  rw [List.length_append, List.length_singleton]
  refine ⟨by simp, Nat.lt_succ_self _, rfl, fun k hk hki => ?_⟩
  exact Int.le_of_eq (congrArg _ (Nat.le_antisymm hk hki))

/-- The history up to the innermost scope, and inside of it. -/
theorem Inside.exists_eq_append (h : Inside history s history.length) :
    ∃ outer inner, history = outer ++ .enter :: inner ∧ Balanced inner := by
  obtain ⟨hlt, henter⟩ := List.getElem?_eq_some_iff.mp h.enter
  refine ⟨history.take s, history.drop (s + 1), ?_, ?_, fun k => ?_⟩
  · rw [← henter, ← List.drop_eq_getElem_cons, List.take_append_drop]
  · have hlevel := h.level_eq
    have hsplit := level_add history (s + 1) (history.drop (s + 1)).length
    rw [List.length_drop] at hsplit ⊢
    rw [Nat.add_sub_cancel' hlt] at hsplit
    omega
  · have hsplit := level_add history (s + 1) k
    rcases Nat.le_total (s + 1 + k) history.length with hk | hk
    · have := h.le_level (s + 1 + k) (Nat.lt_of_lt_of_le s.lt_succ_self (Nat.le_add_right ..)) hk
      omega
    · have hlevel := h.level_eq
      rw [level_eq_of_length_le hk] at hsplit
      omega

/-! ### Scopes that have been left -/

theorem not_left_of_inside_length (h : Inside history s history.length) : ¬ Left history s := by
  rintro ⟨j, hleave, hj⟩
  exact Nat.not_le.mpr (List.getElem?_eq_some_iff.mp hleave).1 (h.le_of_leave hleave hj)

theorem Left.append (h : Left history s) : Left (history ++ more) s := by
  obtain ⟨j, hleave, hj⟩ := h
  have hlt := (List.getElem?_eq_some_iff.mp hleave).1
  exact ⟨j, by rwa [List.getElem?_append_left hlt], (inside_append_iff hlt.le).mpr hj⟩

/-- Operations that do not sink below their start leave no scope that was entered before. -/
theorem left_append_iff (h : Rising more) (hs : s < history.length) :
    Left (history ++ more) s ↔ Left history s := by
  refine ⟨?_, Left.append⟩
  rintro ⟨j, hleave, hj⟩
  rcases Nat.lt_or_ge j history.length with hlt | hge
  · exact ⟨j, by rwa [List.getElem?_append_left hlt] at hleave, (inside_append_iff hlt.le).mp hj⟩
  · obtain ⟨k, rfl⟩ := Nat.exists_eq_add_of_le hge
    rw [List.getElem?_append_right hge, Nat.add_sub_cancel_left] at hleave
    exact absurd (hj.level_le_zero hs) (Int.not_le.mpr (h.level_pos hleave))

theorem le_length_of_concat {last : Operation κ ν} (h : (history ++ [last])[i]? = some op) :
    i ≤ history.length := by
  have := (List.getElem?_eq_some_iff.mp h).1
  rw [List.length_append, List.length_singleton] at this
  exact Nat.le_of_lt_succ this

/-- An attempt to leave the root scope leaves no other one. -/
theorem left_refused_iff (hroot : ∀ s, ¬ Inside history s history.length) :
    Left (history ++ [.leave]) s ↔ Left history s := by
  refine ⟨?_, Left.append⟩
  rintro ⟨j, hleave, hj⟩
  rcases Nat.lt_or_ge j history.length with hlt | hge
  · exact ⟨j, by rwa [List.getElem?_append_left hlt] at hleave, (inside_append_iff hlt.le).mp hj⟩
  · -- the attempt itself stands where no scope is the innermost one
    have hle := le_length_of_concat hleave
    obtain rfl := Nat.le_antisymm hle hge
    exact absurd ((inside_append_iff hle).mp hj) (hroot s)

/-- Balanced operations leave each scope that they enter: where they first sink below its level. -/
theorem Balanced.left (h : Balanced ops) (henter : ops[s]? = some .enter) : Left ops s := by
  have hlevel := level_succ henter
  rw [Operation.rise] at hlevel
  have hexists : ∃ j, s < j ∧ level ops (j + 1) < level ops (s + 1) := by
    refine ⟨ops.length, (List.getElem?_eq_some_iff.mp henter).1, ?_⟩
    rw [level_eq_of_length_le (Nat.le_succ _), h.level_eq]
    have := h.rising s
    omega
  -- the first operation behind which the level is too low is the one that leaves the scope
  obtain ⟨hlt, hsink⟩ := Nat.find_spec hexists
  have habove (k : Nat) (hk : s < k) (hkj : k ≤ Nat.find hexists) :
      level ops (s + 1) ≤ level ops k := by
    obtain ⟨k, rfl⟩ := Nat.exists_eq_add_of_lt hk
    cases k with
    | zero => exact Int.le_refl _
    | succ k =>
      have hmin := Nat.find_min hexists (m := s + (k + 1)) (Nat.lt_of_succ_le hkj)
      exact Int.not_lt.mp fun hlow => hmin ⟨Nat.lt_add_of_pos_right (Nat.succ_pos k), hlow⟩
  have hhigh := habove _ hlt (Nat.le_refl _)
  cases hop : ops[Nat.find hexists]? with
  | none =>
    have hend := List.getElem?_eq_none_iff.mp hop
    rw [level_eq_of_length_le (hend.trans (Nat.le_succ _)), ← level_eq_of_length_le hend] at hsink
    omega
  | some op =>
    have hstep := level_succ hop
    cases op with
    | leave =>
      rw [Operation.rise] at hstep
      exact ⟨_, hop, henter, hlt, by omega, habove⟩
    | _ =>
      rw [Operation.rise] at hstep
      omega

theorem Inside.shift (h : Inside more s i) :
    Inside (history ++ more) (history.length + s) (history.length + i) where
  enter := by
    rw [List.getElem?_append_right (Nat.le_add_right ..), Nat.add_sub_cancel_left]
    exact h.enter
  lt := Nat.add_lt_add_left h.lt _
  level_eq := by
    rw [Nat.add_assoc, level_append, level_append, h.level_eq]
  le_level k hk hki := by
    obtain ⟨j, rfl⟩ := Nat.exists_eq_add_of_le ((Nat.le_add_right ..).trans hk.le)
    rw [Nat.add_assoc, level_append, level_append]
    have := h.le_level j (Nat.lt_of_add_lt_add_left hk) (Nat.le_of_add_le_add_left hki)
    omega

/-- Where a scope is left does not depend on what was done before it was entered. -/
theorem Left.shift (h : Left more s) : Left (history ++ more) (history.length + s) := by
  obtain ⟨j, hleave, hj⟩ := h
  refine ⟨history.length + j, ?_, hj.shift⟩
  rw [List.getElem?_append_right (Nat.le_add_right ..), Nat.add_sub_cancel_left]
  exact hleave

/-! ### Definitions -/

theorem Latest.congr {made made' : Nat → ν → Prop} {answer : Option ν} (h : Latest made answer)
    (hsame : ∀ i value, made' i value ↔ made i value) : Latest made' answer := by
  have heq : made' = made := funext fun i => funext fun value => propext (hsame i value)
  rwa [heq]

theorem lt_length_of_define (h : history[i]? = some (.define name value)) : i < history.length :=
  (List.getElem?_eq_some_iff.mp h).1

/-- What stands behind the history is one of the further operations. -/
theorem mem_of_length_le (hi : history.length ≤ i) (h : (history ++ more)[i]? = some op) :
    op ∈ more := by
  rw [List.getElem?_append_right hi] at h
  exact List.mem_of_getElem? h

/-- Further operations touch a definition only by leaving its scope. -/
theorem live_append_iff (hleft : ∀ s < history.length, (Left (history ++ more) s ↔ Left history s))
    (hmore : ∀ i value, history.length ≤ i → ¬ Live (history ++ more) name i value) (i : Nat)
    (value : ν) :
    Live (history ++ more) name i value ↔ Live history name i value := by
  rcases Nat.lt_or_ge i history.length with hi | hi
  · unfold Live
    rw [List.getElem?_append_left hi]
    refine and_congr_right fun _ => forall_congr' fun s => ?_
    rw [inside_append_iff hi.le]
    exact forall_congr' fun hs => not_congr (hleft s (hs.lt.trans hi))
  · exact iff_of_false (hmore i value hi) fun h => Nat.not_le.mpr (lt_length_of_define h.1) hi

/-- A new definition is live. -/
theorem live_define (history : List (Operation κ ν)) (name : κ) (value : ν) :
    Live (history ++ [.define name value]) name history.length value := by
  refine ⟨by simp, fun s hs => ?_⟩
  have hs := (inside_append_iff (Nat.le_refl _)).mp hs
  rw [left_append_iff (balanced_define name value).rising hs.lt]
  exact not_left_of_inside_length hs

/-- Operations that end in the scope where they begin do not touch the definitions in it. -/
theorem own_append_iff
    (hend : ∀ s, Inside (history ++ more) s (history ++ more).length ↔
      Inside history s history.length)
    (hmore : ∀ i value, history.length ≤ i → ¬ Own (history ++ more) name i value) (i : Nat)
    (value : ν) :
    Own (history ++ more) name i value ↔ Own history name i value := by
  rcases Nat.lt_or_ge i history.length with hi | hi
  · unfold Own
    rw [List.getElem?_append_left hi]
    refine and_congr_right fun _ => forall_congr' fun s => ?_
    rw [inside_append_iff hi.le, hend]
  · exact iff_of_false (hmore i value hi) fun h => Nat.not_le.mpr (lt_length_of_define h.1) hi

/-- What is entered in between and left again does not count. -/
theorem unclosed_append (hleft : ∀ s < history.length, (Left (history ++ more) s ↔ Left history s))
    (hmore : ∀ s, history.length ≤ s → (history ++ more)[s]? = some .enter →
      Left (history ++ more) s) :
    unclosed (history ++ more) = unclosed history := by
  ext s
  rcases Nat.lt_or_ge s history.length with hs | hs
  · exact and_congr (by rw [List.getElem?_append_left hs]) (not_congr (hleft s hs))
  · refine iff_of_false (fun h => h.2 (hmore s hs h.1)) fun h => ?_
    exact Nat.not_le.mpr (List.getElem?_eq_some_iff.mp h.1).1 hs

theorem unclosed_enter (history : List (Operation κ ν)) :
    unclosed (history ++ [.enter]) = insert history.length (unclosed history) := by
  ext s
  rw [Set.mem_insert_iff]
  rcases Nat.lt_trichotomy s history.length with hs | rfl | hs
  · rw [or_iff_right hs.ne]
    refine and_congr (by rw [List.getElem?_append_left hs]) (not_congr ?_)
    exact left_append_iff (rising_singleton Int.one_nonneg) hs
  · refine iff_of_true ⟨by simp, not_left_of_inside_length (inside_enter history)⟩ (.inl rfl)
  · refine iff_of_false (fun h => ?_) ?_
    · have := (List.getElem?_eq_some_iff.mp h.1).1
      rw [List.length_append, List.length_singleton] at this
      omega
    · rintro (rfl | h)
      · exact hs.false
      · exact Nat.lt_asymm hs (List.getElem?_eq_some_iff.mp h.1).1

theorem finite_unclosed (history : List (Operation κ ν)) : (unclosed history).Finite := by
  refine (Set.finite_lt_nat history.length).subset fun s h => ?_
  exact (List.getElem?_eq_some_iff.mp h.1).1

/-! ### Induction on histories -/

/-- A history ends with an entry, with a definition, with an attempt to leave the root scope, or
with a scope from its entry to its end. -/
theorem history_induction {motive : List (Operation κ ν) → Prop} (nil : motive [])
    (enter : ∀ history, motive history → motive (history ++ [.enter]))
    (define : ∀ history name value, motive history → motive (history ++ [.define name value]))
    (refused : ∀ history, (∀ s, ¬ Inside history s history.length) → motive history →
      motive (history ++ [.leave]))
    (closed : ∀ history inner, Balanced inner → motive history → motive (history ++ closed inner))
    (history : List (Operation κ ν)) : motive history := by
  induction hn : history.length using Nat.strong_induction_on generalizing history with
  | _ n ih =>
    rcases List.eq_nil_or_concat' history with rfl | ⟨before, op, rfl⟩
    · exact nil
    · rw [List.length_append, List.length_singleton] at hn
      have hbefore := ih before.length (by omega) before rfl
      cases op with
      | enter => exact enter before hbefore
      | define name value => exact define before name value hbefore
      | leave =>
        by_cases hinside : ∃ s, Inside before s before.length
        · -- the scope that is left has been entered, and the history up to there is shorter
          obtain ⟨s, hs⟩ := hinside
          obtain ⟨outer, inner, rfl, hinner⟩ := hs.exists_eq_append
          rw [List.length_append] at hn
          have := closed outer inner hinner (ih outer.length (by omega) outer rfl)
          rwa [Scopes.closed, ← List.append_assoc] at this
        · exact refused before (not_exists.mp hinside) hbefore

end Lcpl.Scopes
