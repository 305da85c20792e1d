import Lcpl.Registry.Builtin

/-!
# The index of a registry

A registry keeps its classes by number, and beside them an index from names to numbers. The two are
in step when every entry of the index leads to a class of its name, and every class is found under
its name. No operation looks at both sides to see whether they agree: registering a class writes
them one after the other, and replacing a class writes one of them only.

## Main definitions

* `Registry.Indexed` — every entry of the index leads to a class of its name
* `Registry.Named` — every class is found under its name

## Main results

* `Registry.find?_eq_some_iff_name?` — with both, a name is found where a class has it
* `Registry.Indexed.add?`, `Registry.Named.add?` — a registered class is indexed
* `Registry.Indexed.set`, `Registry.Named.set` — a class may be replaced by one of its name
-/

namespace Lcpl.Registry

variable {registry after : Registry} {id : ClassId} {c c' : ClassDef} {name : String}

/-- Every entry of the index leads to a class of its name. -/
def Indexed (registry : Registry) : Prop :=
  ∀ ⦃name id⦄, (name, id) ∈ registry.byName → ∃ c, registry.class? id = some c ∧ c.name = name

/-- Every class is found under its name. -/
def Named (registry : Registry) : Prop :=
  ∀ ⦃id c⦄, registry.class? id = some c → registry.find? c.name = some id

theorem lt_size_of_class? (h : registry.class? id = some c) : id.index < registry.size := by
  rcases Nat.lt_or_ge id.index registry.size with hlt | hge
  · exact hlt
  · rw [class?_eq_none_iff.mpr hge] at h
    cases h

theorem exists_class?_of_lt (h : id.index < registry.size) : ∃ c, registry.class? id = some c := by
  cases hc : registry.class? id with
  | some c => exact ⟨c, rfl⟩
  | none => exact absurd (class?_eq_none_iff.mp hc) (Nat.not_le.mpr h)

/-! ### Looking up names -/

/-- What is found is an entry of the index. -/
theorem mem_byName_of_find? (h : registry.find? name = some id) : (name, id) ∈ registry.byName := by
  obtain ⟨front, rest, hentries, -⟩ := List.lookup_eq_some_iff.mp h
  rw [hentries]
  exact List.mem_append_right front List.mem_cons_self

theorem isSome_find?_iff :
    (registry.find? name).isSome ↔ name ∈ registry.byName.map Prod.fst := by
  rw [find?, List.lookup_isSome_iff, List.mem_map]
  simp only [beq_iff_eq, eq_comm (a := name)]

/-- A name that is found is the name of its class. -/
theorem Indexed.exists_class? (h : registry.Indexed) (hname : registry.find? name = some id) :
    ∃ c, registry.class? id = some c ∧ c.name = name :=
  h (mem_byName_of_find? hname)

/-- If the index is in step with the classes, a name leads to a number exactly where the class of
that number has the name. -/
theorem find?_eq_some_iff_name? (hindexed : registry.Indexed) (hnamed : registry.Named) :
    registry.find? name = some id ↔ registry.name? id = some name := by
  rw [name?, Option.map_eq_some_iff]
  constructor
  · exact hindexed.exists_class?
  · rintro ⟨c, hc, rfl⟩
    exact hnamed hc

/-! ### Registering a class -/

theorem find?_eq_none_of_add? (h : registry.add? c = some after) :
    registry.find? c.name = none :=
  (add?_eq_some_iff.mp h).1

/-- A name that is known keeps its class when another one is added. -/
theorem find?_of_add? (h : registry.add? c = some after) (name : String) :
    after.find? name =
      (registry.find? name).or (if c.name = name then some registry.next else none) := by
  obtain ⟨-, rfl⟩ := add?_eq_some_iff.mp h
  rw [find?, List.lookup_append, find?]
  by_cases hname : c.name = name
  · rw [if_pos hname, hname, List.lookup_cons_self]
  · have hne : (name == c.name) = false := beq_eq_false_iff_ne.mpr (Ne.symm hname)
    rw [if_neg hname, List.lookup_cons, hne, List.lookup_nil]

theorem find?_eq_some_of_add? (h : registry.add? c = some after)
    (hname : registry.find? name = some id) : after.find? name = some id := by
  rw [find?_of_add? h, hname]
  rfl

theorem size_of_add? (h : registry.add? c = some after) : after.size = registry.size + 1 := by
  obtain ⟨-, rfl⟩ := add?_eq_some_iff.mp h
  simp [size]

theorem class?_eq_some_of_add? (h : registry.add? c = some after)
    (hc : registry.class? id = some c') : after.class? id = some c' := by
  have hne : id ≠ registry.next := by
    rintro rfl
    exact Nat.lt_irrefl _ (lt_size_of_class? hc)
  rw [class?_of_add? h, if_neg hne, hc]

theorem Indexed.add? (hindexed : registry.Indexed) (h : registry.add? c = some after) :
    after.Indexed := by
  intro name id hentry
  obtain ⟨-, hafter⟩ := add?_eq_some_iff.mp h
  rw [hafter] at hentry
  rcases List.mem_append.mp hentry with hentry | hentry
  · obtain ⟨d, hd, hname⟩ := hindexed hentry
    exact ⟨d, class?_eq_some_of_add? h hd, hname⟩
  · -- the entry that was added leads to the class that was added
    obtain ⟨rfl, rfl⟩ := Prod.mk.inj (List.mem_singleton.mp hentry)
    exact ⟨c, by rw [class?_of_add? h, if_pos rfl], rfl⟩

theorem Named.add? (hnamed : registry.Named) (h : registry.add? c = some after) : after.Named := by
  intro id d hd
  rw [class?_of_add? h] at hd
  split at hd
  · next hid =>
    obtain rfl := Option.some_inj.mp hd
    rw [find?_of_add? h, find?_eq_none_of_add? h, hid]
    simp
  · exact find?_eq_some_of_add? h (hnamed hd)

/-! ### Replacing a class -/

/-- The index stays as it is, whatever the name of the class is. -/
@[simp] theorem find?_set (registry : Registry) (id : ClassId) (c : ClassDef) (name : String) :
    (registry.set id c).find? name = registry.find? name := rfl

theorem class?_set_of_class? (hc : registry.class? id = some c) (c' : ClassDef) (other : ClassId) :
    (registry.set id c').class? other = if other = id then some c' else registry.class? other := by
  simp [class?_set, lt_size_of_class? hc]

/-- Only one class is replaced. -/
theorem class?_set_cases (hc : registry.class? id = some c) {other : ClassId} {d : ClassDef}
    (hd : (registry.set id c').class? other = some d) :
    other = id ∧ d = c' ∨ other ≠ id ∧ registry.class? other = some d := by
  rw [class?_set_of_class? hc] at hd
  split at hd
  · next hother => exact .inl ⟨hother, (Option.some_inj.mp hd).symm⟩
  · next hother => exact .inr ⟨hother, hd⟩

theorem Indexed.set (hindexed : registry.Indexed) (hc : registry.class? id = some c)
    (hname : c'.name = c.name) : (registry.set id c').Indexed := by
  intro name other hentry
  obtain ⟨d, hd, rfl⟩ := hindexed hentry
  rw [class?_set_of_class? hc]
  split
  · next hother =>
    obtain rfl := Option.some_inj.mp (hc.symm.trans (hother ▸ hd))
    exact ⟨c', rfl, hname⟩
  · exact ⟨d, hd, rfl⟩

theorem Named.set (hnamed : registry.Named) (hc : registry.class? id = some c)
    (hname : c'.name = c.name) : (registry.set id c').Named := by
  intro other d hd
  rw [find?_set]
  rcases class?_set_cases hc hd with ⟨rfl, rfl⟩ | ⟨-, hd⟩
  · rw [hname, hnamed hc]
  · exact hnamed hd

/-! ### The built-in classes -/

/-- The built-in classes, each under its number. -/
theorem class?_builtin (h : builtin.class? id = some c) :
    id = .object ∧ c = .object ∨ id = .string ∧ c = .string ∨ id = .inOut ∧ c = .inOut := by
  obtain ⟨index⟩ := id
  match index, h with
  | 0, h => exact .inl ⟨rfl, (Option.some_inj.mp h).symm⟩
  | 1, h => exact .inr (.inl ⟨rfl, (Option.some_inj.mp h).symm⟩)
  | 2, h => exact .inr (.inr ⟨rfl, (Option.some_inj.mp h).symm⟩)
  | _ + 3, h => simp [class?, builtin] at h

theorem indexed_builtin : builtin.Indexed := by
  intro name id hentry
  rcases List.mem_cons.mp hentry with hentry | hentry
  · obtain ⟨rfl, rfl⟩ := Prod.mk.inj hentry
    exact ⟨.object, rfl, rfl⟩
  rcases List.mem_cons.mp hentry with hentry | hentry
  · obtain ⟨rfl, rfl⟩ := Prod.mk.inj hentry
    exact ⟨.string, rfl, rfl⟩
  · obtain ⟨rfl, rfl⟩ := Prod.mk.inj (List.mem_singleton.mp hentry)
    exact ⟨.inOut, rfl, rfl⟩

theorem named_builtin : builtin.Named := by
  intro id c h
  rcases class?_builtin h with ⟨rfl, rfl⟩ | ⟨rfl, rfl⟩ | ⟨rfl, rfl⟩ <;> decide +kernel

end Lcpl.Registry
