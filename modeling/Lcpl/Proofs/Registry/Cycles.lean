import Lcpl.Proofs.Registry.Index
import Lcpl.Proofs.Registry.Descent

/-!
# The search for cycles

The parents of the classes may be any classes at all: a walk up from a class can end at the top,
come back to the class it began with, or run into a cycle further up that the class itself is not
on. The search rejects a class only in the second case, and it rejects the first such class by
number.

The walk of the search remembers the classes that it has met, and ends at the first one that it
meets again: all that it has met is then closed under parents, so there is nothing else above. The
walk along all ancestors of a class is bounded by the number of classes instead, and both answer
alike.

## Main definitions

* `Registry.FirstOnCycle` — a class that descends from itself, and has the smallest number of these
* `Registry.Climbs` — a walk that remembers the classes it has met, with its answer

## Main results

* `Registry.climbs_leadsTo`, `Registry.Climbs.eq_true_iff` — a walk that remembers ends, and answers
  whether the class stands above
* `Registry.checkCycles_eq_ok_iff`, `Registry.checkCycles_eq_error_iff` — what the search accepts
  and what it rejects
* `Registry.checkCycles_finds_first` — the search is exact, and names the first class on a cycle
-/

namespace Lcpl.Registry

variable {registry : Registry} {id next : ClassId}

/-! ### The first class on a cycle -/

/-- The class descends from itself, and no class of a smaller number does. -/
structure FirstOnCycle (registry : Registry) (id : ClassId) : Prop where
  descends : registry.Descends id id
  le : ∀ other, registry.Descends other other → id.index ≤ other.index

theorem FirstOnCycle.unique {other : ClassId} (h : registry.FirstOnCycle id)
    (h' : registry.FirstOnCycle other) : id = other := by
  obtain ⟨i⟩ := id
  obtain ⟨j⟩ := other
  exact congrArg ClassId.mk (Nat.le_antisymm (h.le _ h'.descends) (h'.le _ h.descends))

/-! ### One check after another -/

theorem forM_eq_ok_iff {α ε : Type} {check : α → Except ε Unit} {xs : List α} :
    xs.forM check = .ok () ↔ ∀ x ∈ xs, check x = .ok () := by
  induction xs with
  | nil => exact iff_of_true rfl (List.forall_mem_nil _)
  | cons x xs ih =>
    rw [List.forM_eq_forM, List.forM_cons, List.forall_mem_cons, ← ih]
    cases hx : check x with
    | error e => simp [bind, Except.bind]
    | ok => simp [bind, Except.bind]

/-- The first failure ends the search. -/
theorem forM_eq_error_iff {α ε : Type} {check : α → Except ε Unit} {xs : List α} {e : ε} :
    xs.forM check = .error e ↔ ∃ front x rest, xs = front ++ x :: rest ∧
      (∀ y ∈ front, check y = .ok ()) ∧ check x = .error e := by
  induction xs with
  | nil => simp [pure, Except.pure]
  | cons x xs ih =>
    rw [List.forM_eq_forM, List.forM_cons]
    cases hx : check x with
    | error e' =>
      constructor
      · intro h
        exact ⟨[], x, xs, rfl, List.forall_mem_nil _, hx.trans h⟩
      · rintro ⟨front, y, rest, hxs, hfront, hy⟩
        cases front with
        | nil =>
          obtain ⟨rfl, rfl⟩ := List.cons.inj hxs
          exact hx.symm.trans hy
        | cons y' front =>
          obtain ⟨rfl, rfl⟩ := List.cons.inj hxs
          rw [hfront x List.mem_cons_self] at hx
          cases hx
    | ok =>
      refine Iff.trans (b := xs.forM check = .error e) Iff.rfl (ih.trans ?_)
      constructor
      · rintro ⟨front, y, rest, rfl, hfront, hy⟩
        exact ⟨x :: front, y, rest, rfl, List.forall_mem_cons.mpr ⟨hx, hfront⟩, hy⟩
      · rintro ⟨front, y, rest, hxs, hfront, hy⟩
        cases front with
        | nil =>
          obtain ⟨rfl, rfl⟩ := List.cons.inj hxs
          rw [hx] at hy
          cases hy
        | cons y' front =>
          obtain ⟨rfl, rfl⟩ := List.cons.inj hxs
          exact ⟨front, y, rest, rfl, (List.forall_mem_cons.mp hfront).2, hy⟩

/-- Classes are searched in the order of their numbers. -/
theorem mem_front_iff {front rest : List ClassId} {other : ClassId}
    (hids : registry.ids = front ++ id :: rest) (hother : other.index < registry.size) :
    other ∈ front ↔ other.index < id.index := by
  have hordered : registry.ids.Pairwise (·.index < ·.index) := by
    rw [ids, List.pairwise_map]
    exact List.pairwise_lt_range
  rw [hids] at hordered
  obtain ⟨-, hrest, hfront⟩ := List.pairwise_append.mp hordered
  constructor
  · exact fun h => hfront other h id List.mem_cons_self
  · intro hless
    have hmem : other ∈ front ++ id :: rest := hids ▸ mem_ids.mpr hother
    rcases List.mem_append.mp hmem with h | h
    · exact h
    · -- what stands behind has no smaller number
      rcases List.mem_cons.mp h with rfl | h
      · exact absurd hless (Nat.lt_irrefl _)
      · exact absurd ((List.pairwise_cons.mp hrest).1 other h) (Nat.not_lt_of_lt hless)

/-! ### A walk that remembers -/

/-- A walk in search of `id` that has met the classes in `met` and now stands at `next?`, with its
answer: it ends at the top, at `id`, or at a class that it has met before. -/
inductive Climbs (registry : Registry) (id : ClassId) :
    List ClassId → Option ClassId → Bool → Prop where
  | top {met} : Climbs registry id met none false
  | found {met} : Climbs registry id met (some id) true
  | round {met next} (hne : next ≠ id) (hmet : next ∈ met) :
      Climbs registry id met (some next) false
  | step {met next answer} (hne : next ≠ id) (hnew : next ∉ met)
      (h : Climbs registry id (next :: met) (registry.parent? next) answer) :
      Climbs registry id met (some next) answer

/-- What a walk has met on its way to `next?`: not `id`, and no class whose parent it has passed
by. -/
def Passed (registry : Registry) (id : ClassId) (met : List ClassId)
    (next? : Option ClassId) : Prop :=
  ∀ x ∈ met, x ≠ id ∧ ∀ parent, registry.ParentOf x parent → parent ∈ met ∨ next? = some parent

theorem Passed.step {met : List ClassId} (h : registry.Passed id met (some next))
    (hne : next ≠ id) :
    registry.Passed id (next :: met) (registry.parent? next) := by
  intro x hx
  rcases List.mem_cons.mp hx with rfl | hx
  · exact ⟨hne, fun parent hparent => .inr hparent⟩
  · refine ⟨(h x hx).1, fun parent hparent => .inl ?_⟩
    rcases (h x hx).2 parent hparent with hmet | hnext
    · exact List.mem_cons_of_mem next hmet
    · obtain rfl := Option.some_inj.mp hnext
      exact List.mem_cons_self

/-- Once the walk is at a class that it has met, it has met everything above. -/
theorem Passed.mem_of_reflTransGen {met : List ClassId} (h : registry.Passed id met (some next))
    (hmet : next ∈ met) {above : ClassId}
    (hreach : Relation.ReflTransGen registry.ParentOf next above) :
    above ∈ met := by
  induction hreach with
  | refl => exact hmet
  | tail _ hparent ih =>
    rcases (h _ ih).2 _ hparent with habove | hnext
    · exact habove
    · exact Option.some_inj.mp hnext ▸ hmet

/-- The answer of a walk is whether `id` stands at or above the class where the walk is. -/
theorem Climbs.eq_true_iff {met : List ClassId} {next? : Option ClassId} {answer : Bool}
    (h : registry.Climbs id met next? answer) (hpassed : registry.Passed id met next?) :
    answer = true ↔ ∃ next, next? = some next ∧
      Relation.ReflTransGen registry.ParentOf next id := by
  induction h with
  | top => simp
  | found => exact iff_of_true rfl ⟨id, rfl, .refl⟩
  | @round met next hne hmet =>
    -- the walk is on a cycle that `id` is not on
    refine iff_of_false Bool.false_ne_true ?_
    rintro ⟨_, ⟨⟩, hreach⟩
    exact (hpassed id (hpassed.mem_of_reflTransGen hmet hreach)).1 rfl
  | @step met next answer hne hnew _ ih =>
    rw [ih (hpassed.step hne)]
    constructor
    · rintro ⟨parent, hparent, hreach⟩
      exact ⟨next, rfl, .head hparent hreach⟩
    · rintro ⟨_, ⟨⟩, hreach⟩
      rcases hreach.cases_head with rfl | ⟨parent, hparent, hreach⟩
      · exact absurd rfl hne
      · exact ⟨parent, hparent, hreach⟩

/-- The walk of the search is such a walk. -/
theorem climbs_leadsTo (registry : Registry) (id : ClassId) (seen : List ClassId)
    (next? : Option ClassId) :
    registry.Climbs id seen next? (registry.leadsTo id seen next?) := by
  fun_induction leadsTo registry id seen next? with
  | case1 seen => exact .top
  | case2 seen => exact .found
  | case3 seen next hne hseen => exact .round hne hseen
  | case4 seen next hne hnew hc =>
    -- a class that is not registered has no parent
    refine .step hne hnew ?_
    rw [parent?, hc, Option.bind_none]
    exact .top
  | case5 seen next hne hnew c hc ih =>
    refine .step hne hnew ?_
    rw [parent?, hc, Option.bind_some]
    exact ih

/-- From the parent of a class on, a walk that remembers answers as the bounded walk does. -/
theorem Climbs.eq_isStrictAncestor {answer : Bool}
    (h : registry.Climbs id [] (registry.parent? id) answer) :
    answer = registry.isStrictAncestor id id := by
  have hpassed : registry.Passed id [] (registry.parent? id) := by simp [Passed]
  rw [Bool.eq_iff_iff, h.eq_true_iff hpassed, isStrictAncestor_iff]
  exact (Relation.TransGen.head'_iff (r := registry.ParentOf)).symm

/-! ### The search -/

theorem checkCycle_of_class? {c : ClassDef} (hc : registry.class? id = some c) :
    registry.checkCycle id =
      if registry.isStrictAncestor id id then
        .error (.rejected ⟨c.line, .inheritanceCycle c.name⟩)
      else .ok () := by
  have hparent : registry.parent? id = c.parent := by rw [parent?, hc, Option.bind_some]
  have hwalk := registry.climbs_leadsTo id [] (registry.parent? id)
  rw [checkCycle, hc, ← hwalk.eq_isStrictAncestor, hparent]

theorem checkCycle_eq_ok_iff (h : id.index < registry.size) :
    registry.checkCycle id = .ok () ↔ ¬ registry.Descends id id := by
  obtain ⟨c, hc⟩ := exists_class?_of_lt h
  rw [checkCycle_of_class? hc, ← isStrictAncestor_iff]
  split <;> simp [*]

theorem checkCycle_eq_error_iff {failure : Failure} (h : id.index < registry.size) :
    registry.checkCycle id = .error failure ↔ registry.Descends id id ∧
      ∃ c, registry.class? id = some c ∧
        failure = .rejected ⟨c.line, .inheritanceCycle c.name⟩ := by
  obtain ⟨c, hc⟩ := exists_class?_of_lt h
  rw [checkCycle_of_class? hc, ← isStrictAncestor_iff]
  split <;> simp [*, eq_comm]

/-- A class on a cycle has a parent, so it is among those searched. -/
theorem Descends.lt_size {ancestor : ClassId} (h : registry.Descends id ancestor) :
    id.index < registry.size := by
  obtain ⟨parent, hparent, -⟩ := Relation.TransGen.head'_iff.mp h
  exact hparent.lt_size

/-- The search for cycles succeeds if and only if no class descends from itself. -/
theorem checkCycles_eq_ok_iff :
    registry.checkCycles = .ok () ↔ ∀ id, ¬ registry.Descends id id := by
  rw [checkCycles, forM_eq_ok_iff]
  constructor
  · intro h id hcycle
    have hlt := hcycle.lt_size
    exact (checkCycle_eq_ok_iff hlt).mp (h id (mem_ids.mpr hlt)) hcycle
  · intro h id hid
    exact (checkCycle_eq_ok_iff (mem_ids.mp hid)).mpr (h id)

/-- What the search rejects is the first class on a cycle, at its line. -/
theorem checkCycles_eq_error_iff {failure : Failure} :
    registry.checkCycles = .error failure ↔
      ∃ id c, registry.FirstOnCycle id ∧ registry.class? id = some c ∧
        failure = .rejected ⟨c.line, .inheritanceCycle c.name⟩ := by
  rw [checkCycles, forM_eq_error_iff]
  constructor
  · rintro ⟨front, id, rest, hids, hfront, hid⟩
    have hlt : id.index < registry.size := mem_ids.mp (by simp [hids])
    obtain ⟨hcycle, c, hc, rfl⟩ := (checkCycle_eq_error_iff hlt).mp hid
    refine ⟨id, c, ⟨hcycle, fun other hother => Nat.le_of_not_lt fun hless => ?_⟩, hc, rfl⟩
    -- a class of a smaller number has been searched before
    have hbefore : other ∈ front := (mem_front_iff hids hother.lt_size).mpr hless
    exact (checkCycle_eq_ok_iff hother.lt_size).mp (hfront other hbefore) hother
  · rintro ⟨id, c, hfirst, hc, rfl⟩
    have hlt := hfirst.descends.lt_size
    obtain ⟨front, rest, hids⟩ := List.append_of_mem (mem_ids.mpr hlt)
    refine ⟨front, id, rest, hids, fun other hother => ?_,
      (checkCycle_eq_error_iff hlt).mpr ⟨hfirst.descends, c, hc, rfl⟩⟩
    have hother' : other.index < registry.size := mem_ids.mp (by simp [hids, hother])
    have hless := (mem_front_iff hids hother').mp hother
    exact (checkCycle_eq_ok_iff hother').mpr fun hcycle =>
      Nat.not_le.mpr hless (hfirst.le other hcycle)

/-- The search for cycles is exact. It succeeds if and only if no class descends from itself, and
otherwise it rejects the first class that does, at the line of that class. A class that only leads
to a cycle is not named. For each class the walk that remembers where it has been ends, and it
answers what the walk along all ancestors answers. -/
theorem checkCycles_finds_first (registry : Registry) :
    (registry.checkCycles = .ok () ↔ ∀ id, ¬ registry.Descends id id) ∧
    (∀ failure, registry.checkCycles = .error failure ↔
      ∃ id c, registry.FirstOnCycle id ∧ registry.class? id = some c ∧
        failure = .rejected ⟨c.line, .inheritanceCycle c.name⟩) ∧
    ∀ id, registry.Climbs id [] (registry.parent? id) (registry.isStrictAncestor id id) :=
  ⟨checkCycles_eq_ok_iff, fun _ => checkCycles_eq_error_iff, fun id =>
    have hwalk := registry.climbs_leadsTo id [] (registry.parent? id)
    hwalk.eq_isStrictAncestor ▸ hwalk⟩

/-- The first class leads into a cycle of the other two, and it is the second one that is named. -/
example :
    (Registry.mk #[
      { ClassDef.declared "Entry" 1 (.declared 0) (some "Loop") with parent := some ⟨1⟩ },
      { ClassDef.declared "Loop" 2 (.declared 1) (some "Back") with parent := some ⟨2⟩ },
      { ClassDef.declared "Back" 3 (.declared 2) (some "Loop") with parent := some ⟨1⟩ }]
      [("Entry", ⟨0⟩), ("Loop", ⟨1⟩), ("Back", ⟨2⟩)]).checkCycles =
      .error (.rejected ⟨2, .inheritanceCycle "Loop"⟩) := by
  decide +kernel

end Lcpl.Registry
