import Lcpl.Registry.Subtyping
import Lcpl.Proofs.Registry.Descent

/-!
# The type of a choice

The type of a choice is the wider one of the types of its branches, and there is none if neither is.
Where classes form a cycle each of two types may be wider than the other, and then the first branch
decides. Without cycles the branches may change places.

A number can be used as a text, but a choice between the two has no type: only a type that holds the
values of both branches as they are will do. So what a choice goes by is narrower than the
conversions.

## Main definitions

* `Registry.IncludedIn` — the values of a type are also values of another
* `Registry.Converts` — the values of a type can be used as those of another
* `Registry.JoinLaws` — the type of a choice as an operation on types

## Main results

* `Registry.join_eq_left`, `Registry.join_eq_right`, `Registry.join_eq_noValue` — the type of a
  choice, by which branch is the wider one
* `Registry.joinLaws` — without cycles, the type of a choice is a symmetric bound
-/

namespace Lcpl.Registry

variable {registry : Registry} {a b : Ty}

/-! ### Wider types -/

/-- Every value of the first type is one of the second: the types are the same, the value is the
`void` literal, or the second is a class above the first. -/
inductive IncludedIn (registry : Registry) : Ty → Ty → Prop where
  | refl (a : Ty) : IncludedIn registry a a
  | null (b : Ty) : IncludedIn registry .null b
  | ancestor {id ancestor : ClassId} (h : registry.Descends id ancestor) :
      IncludedIn registry (.object id) (.object ancestor)

/-- A value of the first type can be used where the second is expected, as it is or with a cast to
that type. -/
def Converts (registry : Registry) (source target : Ty) : Prop :=
  registry.conversion? source target = some .keep ∨
    registry.conversion? source target = some (.cast target)

theorem IncludedIn.converts (h : registry.IncludedIn a b) : registry.Converts a b := by
  unfold Converts conversion?
  cases h with
  | refl => simp
  | null => cases b <;> simp
  | @ancestor id ancestor h =>
    by_cases hsame : Ty.object id = .object ancestor
    · simp [hsame]
    · simp [hsame, isStrictAncestor_iff.mpr h]

/-- Between types that have values, only a class has a wider type, and that is a class above it. -/
theorem includedIn_iff_of_ne (hne : a ≠ b) (hnull : a ≠ .null) :
    registry.IncludedIn a b ↔
      ∃ x y, a = .object x ∧ b = .object y ∧ registry.isStrictAncestor y x := by
  constructor
  · intro h
    cases h with
    | refl => exact absurd rfl hne
    | null => exact absurd rfl hnull
    | ancestor h => exact ⟨_, _, rfl, rfl, isStrictAncestor_iff.mpr h⟩
  · rintro ⟨x, y, rfl, rfl, h⟩
    exact .ancestor (isStrictAncestor_iff.mp h)

theorem eq_of_noValue_includedIn (h : registry.IncludedIn .noValue b) : b = .noValue := by
  cases h
  rfl

/-! ### The wider branch -/

/-- The first branch is looked at first, so no more is needed for it to be the wider one. -/
theorem join_eq_left (h : registry.IncludedIn b a) : registry.join a b = a := by
  unfold join
  cases h with
  | refl => exact if_pos rfl
  | null => cases a <;> rfl
  | ancestor h => simp [isStrictAncestor_iff.mpr h]

/-- Two different classes are not above each other, so the first branch is passed over. -/
theorem join_eq_right (hacyclic : ∀ id, ¬ registry.Descends id id) (h : registry.IncludedIn a b) :
    registry.join a b = b := by
  unfold join
  cases h with
  | refl => exact if_pos rfl
  | null => cases b <;> rfl
  | @ancestor id ancestor h =>
    have hbelow : ¬ registry.isStrictAncestor id ancestor := fun habove =>
      hacyclic id (h.trans (isStrictAncestor_iff.mp habove))
    simp [hbelow, isStrictAncestor_iff.mpr h]

theorem join_eq_noValue (ha : ¬ registry.IncludedIn a b) (hb : ¬ registry.IncludedIn b a) :
    registry.join a b = .noValue := by
  have hne : a ≠ b := by
    rintro rfl
    exact ha (.refl a)
  unfold join
  rw [if_neg hne]
  -- the cases of the rule that give a type are those in which one branch is the wider one
  split
  · exact absurd (.null _) ha
  · exact absurd (.null _) hb
  · rw [if_neg fun h => hb (.ancestor (isStrictAncestor_iff.mp h)),
      if_neg fun h => ha (.ancestor (isStrictAncestor_iff.mp h))]
  · rfl

/-- A choice has a type only if one of the branches is the wider one. -/
theorem includedIn_or_includedIn_of_join_ne (h : registry.join a b ≠ .noValue) :
    registry.IncludedIn a b ∨ registry.IncludedIn b a := by
  by_contra hnone
  rw [not_or] at hnone
  exact h (join_eq_noValue hnone.1 hnone.2)

/-! ### The laws -/

/-- The type of a choice is a bound of the types of the branches, whatever their order. -/
structure JoinLaws (registry : Registry) : Prop where
  comm : ∀ a b, registry.join a b = registry.join b a
  self : ∀ a, registry.join a a = a
  null : ∀ a, registry.join .null a = a ∧ registry.join a .null = a
  noValue : ∀ a, registry.join .noValue a = .noValue ∧ registry.join a .noValue = .noValue
  bound : ∀ a b, registry.join a b ≠ .noValue →
    (registry.join a b = a ∨ registry.join a b = b) ∧
      registry.Converts a (registry.join a b) ∧ registry.Converts b (registry.join a b)
  related : ∀ a b, a ≠ b → a ≠ .null → b ≠ .null → a ≠ .noValue → b ≠ .noValue →
    (registry.join a b ≠ .noValue ↔ ∃ x y, a = .object x ∧ b = .object y ∧
      (registry.isStrictAncestor x y ∨ registry.isStrictAncestor y x))

section Acyclic

variable (hacyclic : ∀ id, ¬ registry.Descends id id)
include hacyclic

theorem join_comm (a b : Ty) : registry.join a b = registry.join b a := by
  by_cases ha : registry.IncludedIn a b
  · rw [join_eq_right hacyclic ha, join_eq_left ha]
  · by_cases hb : registry.IncludedIn b a
    · rw [join_eq_left hb, join_eq_right hacyclic hb]
    · rw [join_eq_noValue ha hb, join_eq_noValue hb ha]

/-- What is a choice between no value and something is no value. -/
theorem noValue_join (a : Ty) : registry.join .noValue a = .noValue := by
  by_contra hne
  rcases includedIn_or_includedIn_of_join_ne hne with h | h
  · obtain rfl := eq_of_noValue_includedIn h
    exact hne (join_eq_right hacyclic h)
  · exact hne (join_eq_left h)

/-- Both branches can be used as the type of the choice. -/
theorem converts_join (h : registry.join a b ≠ .noValue) :
    (registry.join a b = a ∨ registry.join a b = b) ∧
      registry.Converts a (registry.join a b) ∧ registry.Converts b (registry.join a b) := by
  rcases includedIn_or_includedIn_of_join_ne h with hincluded | hincluded
  · rw [join_eq_right hacyclic hincluded]
    exact ⟨.inr rfl, hincluded.converts, (IncludedIn.refl b).converts⟩
  · rw [join_eq_left hincluded]
    exact ⟨.inl rfl, (IncludedIn.refl a).converts, hincluded.converts⟩

theorem join_ne_noValue_iff (ha : a ≠ .noValue) (hb : b ≠ .noValue) :
    registry.join a b ≠ .noValue ↔ registry.IncludedIn a b ∨ registry.IncludedIn b a := by
  constructor
  · exact includedIn_or_includedIn_of_join_ne
  · rintro (h | h)
    · rwa [join_eq_right hacyclic h]
    · rwa [join_eq_left h]

/-- Without cycles, the type of a choice is a bound of the types of the branches, whatever their
order. -/
theorem joinLaws : registry.JoinLaws where
  comm := join_comm hacyclic
  self a := join_eq_left (.refl a)
  null a := ⟨join_eq_right hacyclic (.null a), join_eq_left (.null a)⟩
  noValue a := ⟨noValue_join hacyclic a, (join_comm hacyclic a _).trans (noValue_join hacyclic a)⟩
  bound _ _ := converts_join hacyclic
  related a b hne hanull hbnull ha hb := by
    rw [join_ne_noValue_iff hacyclic ha hb, includedIn_iff_of_ne hne hanull,
      includedIn_iff_of_ne hne.symm hbnull]
    constructor
    · rintro (⟨x, y, rfl, rfl, h⟩ | ⟨y, x, rfl, rfl, h⟩)
      · exact ⟨x, y, rfl, rfl, .inr h⟩
      · exact ⟨x, y, rfl, rfl, .inl h⟩
    · rintro ⟨x, y, rfl, rfl, h | h⟩
      · exact .inr ⟨y, x, rfl, rfl, h⟩
      · exact .inl ⟨x, y, rfl, rfl, h⟩

end Acyclic

/-- Between two classes that inherit from each other, the first branch decides. -/
example :
    let registry := Registry.mk #[
      { ClassDef.declared "Loop" 1 (.declared 0) (some "Back") with parent := some ⟨1⟩ },
      { ClassDef.declared "Back" 2 (.declared 1) (some "Loop") with parent := some ⟨0⟩ }]
      [("Loop", ⟨0⟩), ("Back", ⟨1⟩)]
    registry.join (.object ⟨0⟩) (.object ⟨1⟩) = .object ⟨0⟩ ∧
      registry.join (.object ⟨1⟩) (.object ⟨0⟩) = .object ⟨1⟩ := by
  decide

end Lcpl.Registry
