import Lcpl.Analysis.Signature
import Lcpl.Proofs.Registry.Index

/-!
# Coherent registries

A registry is coherent when the names in it lead back to what they name: a class is found under its
name, a feature belongs to the class that lists it, and the types of a feature are those that its
declaration names.

## Main definitions

* `Registry.Coherent` — a registry whose names lead back to what they name
* `Registry.Declarable` — a type that a declaration can name
* `Registry.method?` — the method that a recorded reference stands for

## Main results

* `Registry.Indexed.exists_label` — a declarable type is recorded under a name that resolves to it
* `Registry.Coherent.of_lookupMethod?`, `Registry.Coherent.of_lookupAttribute?` — what is known of a
  feature that was looked up
-/

namespace Lcpl

namespace Registry

/-- A type that a declaration can name. -/
def Declarable (registry : Registry) (ty : Ty) : Prop := ∃ name, registry.resolve? name = some ty

/-- The method that a recorded reference stands for. -/
def method? (registry : Registry) (ref : MethodRef) : Option MethodDef :=
  (registry.find? ref.className).bind fun id => registry.ownMethod? id ref.name

/-- A method of the class `id` belongs to it, and its types are those that its declaration names. -/
structure OwnsMethod (registry : Registry) (id : ClassId) (m : MethodDef) : Prop where
  owner : m.owner = id
  params : ∀ p ∈ m.params, registry.resolve? p.typeName = some p.ty
  returnTy : m.returnTy = registry.resolveReturn? m.returnTypeName

/-- An attribute of the class `id` belongs to it, and its type is the one that its declaration
names. -/
structure OwnsAttribute (registry : Registry) (id : ClassId) (attr : AttributeDef) : Prop where
  owner : attr.owner = id
  type : registry.resolve? attr.typeName = some attr.ty

/-- Names lead back to what they name. -/
structure Coherent (registry : Registry) : Prop where
  indexed : registry.Indexed
  find?_name : registry.Named
  methods : ∀ {id c}, registry.class? id = some c → ∀ m ∈ c.methods, registry.OwnsMethod id m
  attributes : ∀ {id c}, registry.class? id = some c →
    ∀ attr ∈ c.attributes, registry.OwnsAttribute id attr
  find?_object : registry.find? Vocabulary.object = some .object
  find?_string : registry.find? Vocabulary.string = some .string

variable {registry : Registry} {id : ClassId} {ty : Ty} {name : String}

theorem resolve?_of_find? (h : registry.find? name = some id) (hname : name ≠ Vocabulary.int) :
    registry.resolve? name = some (.object id) := by
  rw [resolve?, if_neg hname, h]
  rfl

/-- A type that a name resolves to is a number or an object of the class of that name. -/
theorem resolve?_eq_some_iff :
    registry.resolve? name = some ty ↔
      name = Vocabulary.int ∧ ty = .int ∨
        name ≠ Vocabulary.int ∧ ∃ id, registry.find? name = some id ∧ ty = .object id := by
  unfold resolve?
  by_cases hname : name = Vocabulary.int
  · simp [hname, eq_comm]
  · simp only [hname, if_false, false_and, false_or, ne_eq, not_false_eq_true, true_and,
      Option.map_eq_some_iff]
    simp only [eq_comm]

/-- A declarable type is recorded under a name that resolves to it. -/
theorem Indexed.exists_label (hindexed : registry.Indexed) (h : registry.Declarable ty) :
    ∃ type, registry.label? ty = some type ∧ registry.resolve? type.text = some ty := by
  obtain ⟨name, h⟩ := h
  rcases resolve?_eq_some_iff.mp h with ⟨rfl, rfl⟩ | ⟨hname, id, hfind, rfl⟩
  · exact ⟨.int, rfl, rfl⟩
  · obtain ⟨c, hc, rfl⟩ := hindexed.exists_class? hfind
    exact ⟨.object c.name, by simp [label?, hc], h⟩

/-- What a method returns is declarable, or no value. -/
theorem declarable_of_resolveReturn? (h : registry.resolveReturn? name = some ty) :
    ty = .noValue ∨ registry.Declarable ty := by
  unfold resolveReturn? at h
  split at h
  · exact .inl (Option.some_inj.mp h).symm
  · exact .inr ⟨name, h⟩

namespace Coherent

variable (hr : registry.Coherent)
include hr

theorem declarable_string : registry.Declarable .string :=
  ⟨_, resolve?_of_find? hr.find?_string (by decide)⟩

theorem declarable_object : registry.Declarable (.object .object) :=
  ⟨_, resolve?_of_find? hr.find?_object (by decide)⟩

/-- A method that was looked up is that of its reference, and its types are declared ones. -/
theorem of_lookupMethod? {m : MethodDef} (h : registry.lookupMethod? id name = some m) :
    ∃ owner, registry.name? m.owner = some owner ∧ registry.method? ⟨owner, m.name⟩ = some m ∧
      (∀ p ∈ m.params, registry.Declarable p.ty) ∧
      m.returnTy = registry.resolveReturn? m.returnTypeName := by
  obtain ⟨holder, -, hown⟩ := List.exists_of_findSome?_eq_some h
  obtain ⟨c, hc, hm⟩ := Option.bind_eq_some_iff.mp hown
  have hmem := List.mem_of_find?_eq_some hm
  have hname : m.name = name := by simpa using List.find?_some hm
  have howns := hr.methods hc m hmem
  refine ⟨c.name, by simp [name?, howns.owner, hc], ?_, ?_, howns.returnTy⟩
  · simp only [method?, hr.find?_name hc, Option.bind_some, hname]
    exact hown
  · exact fun p hp => ⟨p.typeName, howns.params p hp⟩

/-- The class of an attribute that was looked up is registered, and its type is a declared one. -/
theorem of_lookupAttribute? {attr : AttributeDef}
    (h : registry.lookupAttribute? id name = some attr) :
    (∃ owner, registry.name? attr.owner = some owner) ∧ registry.Declarable attr.ty := by
  obtain ⟨holder, -, hown⟩ := List.exists_of_findSome?_eq_some h
  obtain ⟨c, hc, hattr⟩ := Option.bind_eq_some_iff.mp hown
  have hmem := List.mem_of_find?_eq_some hattr
  have howns := hr.attributes hc attr hmem
  exact ⟨⟨c.name, by simp [name?, howns.owner, hc]⟩, attr.typeName, howns.type⟩

end Coherent

end Registry

end Lcpl
