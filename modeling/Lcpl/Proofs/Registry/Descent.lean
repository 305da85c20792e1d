import Mathlib.Logic.Relation
import Mathlib.Data.Fintype.Card
import Lcpl.Registry.Ancestry
import Lcpl.Analysis.Hierarchy

/-!
# Descent

A class descends from the classes above it in the hierarchy. The ancestors of a class are computed
by a walk up the parents that takes at most as many steps as there are classes, and that is enough:
the walk meets exactly the classes that the given one descends from, also where the parents form a
cycle. For a walk that comes by some class twice can leave out what lies between.

## Main definitions

* `Registry.ParentOf`, `Registry.Descends` — one step up the hierarchy, and one or more of them
* `Registry.walk?` — the class a given number of steps above another
* `Registry.Rooted`, `Registry.UnderObject` — every class but `Object` has a registered parent, and
  descends from `Object`

## Main results

* `Registry.mem_ancestors_iff` — the ancestors of a class are the classes it descends from
* `Registry.Rooted.underObject` — without cycles, everything descends from `Object`
-/

namespace Lcpl.Registry

variable {registry : Registry} {id parent ancestor : ClassId} {m n : Nat}

/-- `parent` is the parent of `id`. -/
def ParentOf (registry : Registry) (id parent : ClassId) : Prop :=
  registry.parent? id = some parent

/-- `ancestor` stands one or more steps above `id`. -/
def Descends (registry : Registry) (id ancestor : ClassId) : Prop :=
  Relation.TransGen registry.ParentOf id ancestor

theorem ParentOf.eq {other : ClassId} (h : registry.ParentOf id parent)
    (h' : registry.ParentOf id other) : parent = other :=
  Option.some_inj.mp (h.symm.trans h')

/-- Each class has at most one parent. -/
theorem rightUnique_parentOf (registry : Registry) : Relator.RightUnique registry.ParentOf :=
  fun _ _ _ h h' => h.eq h'

/-- Two classes above a class are one, or one of them is above the other. -/
theorem eq_or_descends {a b : ClassId} (ha : Relation.ReflTransGen registry.ParentOf id a)
    (hb : Relation.ReflTransGen registry.ParentOf id b) :
    a = b ∨ registry.Descends a b ∨ registry.Descends b a := by
  rcases Relation.ReflTransGen.total_of_right_unique registry.rightUnique_parentOf ha hb with h | h
  · rcases Relation.reflTransGen_iff_eq_or_transGen.mp h with heq | habove
    · exact .inl heq.symm
    · exact .inr (.inl habove)
  · rcases Relation.reflTransGen_iff_eq_or_transGen.mp h with heq | habove
    · exact .inl heq
    · exact .inr (.inr habove)

theorem ParentOf.lt_size (h : registry.ParentOf id parent) : id.index < registry.size := by
  by_contra hge
  rw [ParentOf, parent?, class?_eq_none_iff.mpr (Nat.le_of_not_lt hge)] at h
  cases h

/-! ### Walks -/

/-- The class that stands the given number of steps above another. -/
def walk? (registry : Registry) : Nat → ClassId → Option ClassId
  | 0, id => some id
  | n + 1, id => (registry.parent? id).bind (registry.walk? n)

theorem walk?_add (m n : Nat) (id : ClassId) :
    registry.walk? (m + n) id = (registry.walk? m id).bind (registry.walk? n) := by
  induction m generalizing id with
  | zero => rw [Nat.zero_add, walk?, Option.bind_some]
  | succ m ih =>
    rw [Nat.succ_add, walk?, walk?, Option.bind_assoc]
    congr 1
    funext above
    exact ih above

theorem walk?_succ_eq (h : registry.walk? m id = some ancestor) :
    registry.walk? (m + 1) id = registry.parent? ancestor := by
  rw [walk?_add, h, Option.bind_some]
  exact Option.bind_fun_some _

/-- A walk that leads somewhere has led somewhere at every earlier step. -/
theorem exists_walk?_of_le (h : registry.walk? n id = some ancestor) (hle : m ≤ n) :
    ∃ above, registry.walk? m id = some above := by
  obtain ⟨k, rfl⟩ := Nat.exists_eq_add_of_le hle
  rw [walk?_add] at h
  obtain ⟨above, habove, -⟩ := Option.bind_eq_some_iff.mp h
  exact ⟨above, habove⟩

theorem descends_iff_exists_walk? :
    registry.Descends id ancestor ↔ ∃ n, registry.walk? (n + 1) id = some ancestor := by
  constructor
  · intro h
    induction h with
    | single hparent => exact ⟨0, by rw [walk?, hparent]; rfl⟩
    | tail _ hparent ih =>
      obtain ⟨n, hn⟩ := ih
      exact ⟨n + 1, (walk?_succ_eq hn).trans hparent⟩
  · rintro ⟨n, hn⟩
    induction n generalizing ancestor with
    | zero => exact .single ((walk?_succ_eq rfl).symm.trans hn)
    | succ n ih =>
      obtain ⟨above, habove⟩ := exists_walk?_of_le hn (Nat.le_succ _)
      exact (ih habove).tail ((walk?_succ_eq habove).symm.trans hn)

/-- Of the walks that lead from one class to another, the shortest takes no more steps than there
are classes. -/
theorem exists_walk?_lt_size (h : registry.walk? (n + 1) id = some ancestor) :
    ∃ m < registry.size, registry.walk? (m + 1) id = some ancestor := by
  classical
  have hexists : ∃ m, registry.walk? (m + 1) id = some ancestor := ⟨n, h⟩
  let shortest := Nat.find hexists
  have hshortest : registry.walk? (shortest + 1) id = some ancestor := Nat.find_spec hexists
  refine ⟨shortest, ?_, hshortest⟩
  -- the classes passed on the way are registered, since each has a parent
  have hpassed (k : Fin (shortest + 1)) :
      ∃ above, registry.walk? k id = some above ∧ above.index < registry.size := by
    obtain ⟨above, habove⟩ := exists_walk?_of_le hshortest k.isLt.le
    obtain ⟨parent, hparent⟩ := exists_walk?_of_le hshortest k.isLt
    rw [walk?_succ_eq habove] at hparent
    exact ⟨above, habove, ParentOf.lt_size hparent⟩
  choose passed hwalk hlt using hpassed
  -- and they are different: what lies between two passes of a class could be left out
  have hdistinct : Function.Injective fun k => (⟨(passed k).index, hlt k⟩ : Fin registry.size) := by
    have hne : ∀ j k : Fin (shortest + 1), j < k → passed j ≠ passed k := by
      intro j k hjk hsame
      obtain ⟨rest, hrest⟩ := Nat.exists_eq_add_of_le k.isLt
      have hskip : registry.walk? (j + rest + 1) id = some ancestor := by
        rw [Nat.add_assoc, walk?_add, hwalk, hsame, ← hwalk, ← walk?_add,
          show k + (rest + 1) = shortest + 1 by omega]
        exact hshortest
      have := Nat.find_min' hexists hskip
      have : (j : Nat) < k := hjk
      omega
    intro j k hsame
    have hindex : passed j = passed k := congrArg ClassId.mk (Fin.mk.inj hsame)
    rcases lt_trichotomy j k with hjk | hjk | hjk
    · exact absurd hindex (hne j k hjk)
    · exact hjk
    · exact absurd hindex.symm (hne k j hjk)
  have hcard := Fintype.card_le_of_injective _ hdistinct
  rw [Fintype.card_fin, Fintype.card_fin] at hcard
  exact hcard

/-- Where nothing descends from itself, a walk of more steps than there are classes leads
nowhere. -/
theorem walk?_eq_none_of_size_le (hacyclic : ∀ id, ¬ registry.Descends id id)
    (hle : registry.size ≤ n) : registry.walk? (n + 1) id = none := by
  by_contra hsome
  obtain ⟨far, hfar⟩ := Option.ne_none_iff_exists'.mp hsome
  obtain ⟨m, hm, hnear⟩ := exists_walk?_lt_size hfar
  -- it would come back to where it was
  obtain ⟨k, hk⟩ := Nat.exists_eq_add_of_lt (Nat.lt_of_lt_of_le hm hle)
  have hback : registry.walk? (k + 1) far = some far := by
    rw [hk, show m + k + 1 + 1 = m + 1 + (k + 1) by omega, walk?_add, hnear,
      Option.bind_some] at hfar
    exact hfar
  exact hacyclic far (descends_iff_exists_walk?.mpr ⟨k, hback⟩)

/-! ### Ancestors -/

theorem getElem?_chain (steps : Nat) (from? : Option ClassId) (k : Nat) :
    (registry.chain steps from?)[k]? =
      if k < steps then from?.bind (registry.walk? k) else none := by
  induction steps generalizing from? k with
  | zero => rfl
  | succ steps ih =>
    cases from? with
    | none => simp [chain]
    | some id =>
      cases k with
      | zero => simp [chain, walk?]
      | succ k => simp [chain, walk?, ih]

theorem getElem?_ancestors (id : ClassId) (k : Nat) :
    (registry.ancestors id)[k]? = if k < registry.size then registry.walk? (k + 1) id else none :=
  getElem?_chain registry.size (registry.parent? id) k

/-- The walk up the parents meets exactly the classes that a class descends from. -/
theorem mem_ancestors_iff : ancestor ∈ registry.ancestors id ↔ registry.Descends id ancestor := by
  rw [List.mem_iff_getElem?, descends_iff_exists_walk?]
  constructor
  · rintro ⟨k, hk⟩
    rw [getElem?_ancestors] at hk
    split at hk
    · exact ⟨k, hk⟩
    · cases hk
  · rintro ⟨n, hn⟩
    obtain ⟨m, hlt, hm⟩ := exists_walk?_lt_size hn
    exact ⟨m, by rw [getElem?_ancestors, if_pos hlt, hm]⟩

theorem isStrictAncestor_iff :
    registry.isStrictAncestor ancestor id = true ↔ registry.Descends id ancestor := by
  rw [isStrictAncestor, decide_eq_true_iff, mem_ancestors_iff]

/-! ### The root of the hierarchy -/

/-- Every class but `Object` has a parent, which is registered too. -/
def Rooted (registry : Registry) : Prop :=
  ∀ id, id.index < registry.size → id ≠ .object →
    ∃ parent, registry.ParentOf id parent ∧ parent.index < registry.size

/-- Every class but `Object` descends from `Object`. -/
def UnderObject (registry : Registry) : Prop :=
  ∀ id, id.index < registry.size → id ≠ .object → registry.Descends id .object

/-- Where nothing descends from itself, every class but `Object` descends from `Object`. -/
theorem Rooted.underObject (hrooted : registry.Rooted)
    (hacyclic : ∀ id, ¬ registry.Descends id id) : registry.UnderObject := by
  intro id hlt hid
  by_contra hobject
  -- a walk that never arrives at `Object` goes on for ever
  have hgoes (n : Nat) : ∃ above, registry.walk? n id = some above ∧
      above.index < registry.size ∧ above ≠ .object := by
    induction n with
    | zero => exact ⟨id, rfl, hlt, hid⟩
    | succ n ih =>
      obtain ⟨above, habove, hregistered, hne⟩ := ih
      obtain ⟨parent, hparent, hregistered⟩ := hrooted above hregistered hne
      have hwalk : registry.walk? (n + 1) id = some parent := (walk?_succ_eq habove).trans hparent
      refine ⟨parent, hwalk, hregistered, ?_⟩
      rintro rfl
      exact hobject (descends_iff_exists_walk?.mpr ⟨n, hwalk⟩)
  obtain ⟨far, hfar, -⟩ := hgoes (registry.size + 1)
  rw [walk?_eq_none_of_size_le hacyclic (Nat.le_refl _)] at hfar
  cases hfar

end Lcpl.Registry
