import Lcpl.Proofs.Registry.Coherent

/-!
# Registries under construction

The registry is built up in two ways: a class is added under a new name, and a known class is
replaced by one of the same name, with a parent or with one more feature. Neither breaks coherence,
and the second kind of change forgets nothing.

## Main definitions

* `Registry.Extends` — a registry that knows the same classes and all their features, maybe more
* `Registry.Settled` — a registry in which no return type waits for a class

## Main results

* `Registry.coherent_builtin` — the registry of the built-in classes is coherent
* `Registry.Coherent.add?`, `Registry.extends_set` — what the two changes preserve
-/

namespace Lcpl.Registry

variable {registry before after : Registry} {id : ClassId} {c c' : ClassDef} {name : String}

/-! ### Adding a class -/

theorem resolve?_eq_some_of_add? {ty : Ty} (h : registry.add? c = some after)
    (hname : registry.resolve? name = some ty) : after.resolve? name = some ty := by
  rcases resolve?_eq_some_iff.mp hname with ⟨rfl, rfl⟩ | ⟨hint, id, hfind, rfl⟩
  · rfl
  · exact resolve?_of_find? (find?_eq_some_of_add? h hfind) hint

/-- No method waits for the class of its return type. -/
def Settled (registry : Registry) : Prop :=
  ∀ id c, registry.class? id = some c → ∀ m ∈ c.methods, m.returnTy ≠ none

theorem Settled.add? (hsettled : registry.Settled) (h : registry.add? c = some after)
    (hmethods : c.methods = []) : after.Settled := by
  intro id c' hc m hm
  rw [class?_of_add? h] at hc
  split at hc
  · obtain rfl := Option.some_inj.mp hc
    simp [hmethods] at hm
  · exact hsettled id c' hc m hm

theorem OwnsMethod.add? {m : MethodDef} (hm : registry.OwnsMethod id m)
    (h : registry.add? c = some after) (hreturn : m.returnTy ≠ none) : after.OwnsMethod id m where
  owner := hm.owner
  params p hp := resolve?_eq_some_of_add? h (hm.params p hp)
  returnTy := by
    rw [hm.returnTy] at hreturn ⊢
    obtain ⟨ty, hty⟩ := Option.ne_none_iff_exists'.mp hreturn
    rw [hty]
    unfold resolveReturn? at hty ⊢
    split at hty
    · next hvoid => rw [if_pos hvoid, hty]
    · next hvoid => rw [if_neg hvoid, resolve?_eq_some_of_add? h hty]

/-- A class without features may be added as long as no return type waits for it. -/
theorem Coherent.add? (hr : registry.Coherent) (hsettled : registry.Settled)
    (h : registry.add? c = some after) (hmethods : c.methods = []) (hattrs : c.attributes = []) :
    after.Coherent where
  indexed := hr.indexed.add? h
  find?_name := hr.find?_name.add? h
  methods {id c'} hc m hm := by
    rw [class?_of_add? h] at hc
    split at hc
    · obtain rfl := Option.some_inj.mp hc
      simp [hmethods] at hm
    · exact (hr.methods hc m hm).add? h (hsettled id c' hc m hm)
  attributes {id c'} hc attr hattr := by
    rw [class?_of_add? h] at hc
    split at hc
    · obtain rfl := Option.some_inj.mp hc
      simp [hattrs] at hattr
    · have howns := hr.attributes hc attr hattr
      exact ⟨howns.owner, resolve?_eq_some_of_add? h howns.type⟩
  find?_object := find?_eq_some_of_add? h hr.find?_object
  find?_string := find?_eq_some_of_add? h hr.find?_string

/-! ### Replacing a class -/

/-- The same classes are known under the same numbers, with the features that they had and maybe
more behind them. -/
structure Extends (before after : Registry) : Prop where
  find?_eq : ∀ name, after.find? name = before.find? name
  class? : ∀ {id c}, before.class? id = some c → ∃ c', after.class? id = some c' ∧
    c'.name = c.name ∧ c.methods <+: c'.methods ∧ c.attributes <+: c'.attributes
  coherent : before.Coherent → after.Coherent

namespace Extends

theorem refl (registry : Registry) : registry.Extends registry where
  find?_eq _ := rfl
  class? hc := ⟨_, hc, rfl, List.prefix_rfl, List.prefix_rfl⟩
  coherent h := h

theorem trans {middle : Registry} (h : before.Extends middle) (h' : middle.Extends after) :
    before.Extends after where
  find?_eq name := (h'.find?_eq name).trans (h.find?_eq name)
  class? hc := by
    obtain ⟨c', hc', hname, hmethods, hattrs⟩ := h.class? hc
    obtain ⟨c'', hc'', hname', hmethods', hattrs'⟩ := h'.class? hc'
    exact ⟨c'', hc'', hname'.trans hname, hmethods.trans hmethods', hattrs.trans hattrs'⟩
  coherent hr := h'.coherent (h.coherent hr)

theorem name?_eq (h : before.Extends after) (hname : before.name? id = some name) :
    after.name? id = some name := by
  obtain ⟨c, hc, rfl⟩ := Option.map_eq_some_iff.mp hname
  obtain ⟨c', hc', hname', -⟩ := h.class? hc
  rw [name?, hc', Option.map_some, hname']

theorem ownMethod?_eq {m : MethodDef} (h : before.Extends after)
    (hm : before.ownMethod? id name = some m) : after.ownMethod? id name = some m := by
  obtain ⟨c, hc, hm⟩ := Option.bind_eq_some_iff.mp hm
  obtain ⟨c', hc', -, ⟨rest, hrest⟩, -⟩ := h.class? hc
  rw [ownMethod?, hc', Option.bind_some, ClassDef.method?, ← hrest, List.find?_append]
  exact Option.or_eq_some_iff.mpr (.inl hm)

theorem ownAttribute?_eq {attr : AttributeDef} (h : before.Extends after)
    (hattr : before.ownAttribute? id name = some attr) :
    after.ownAttribute? id name = some attr := by
  obtain ⟨c, hc, hattr⟩ := Option.bind_eq_some_iff.mp hattr
  obtain ⟨c', hc', -, -, ⟨rest, hrest⟩⟩ := h.class? hc
  rw [ownAttribute?, hc', Option.bind_some, ClassDef.attribute?, ← hrest, List.find?_append]
  exact Option.or_eq_some_iff.mpr (.inl hattr)

end Extends

/-- A class may be replaced by one of the same name that has its features, and maybe more behind
them that are as declared. -/
theorem extends_set {methods : List MethodDef} {attributes : List AttributeDef}
    (hc : registry.class? id = some c) (c' : ClassDef) (hname : c'.name = c.name)
    (hmethods : c'.methods = c.methods ++ methods)
    (hattrs : c'.attributes = c.attributes ++ attributes)
    (howns : ∀ m ∈ methods, registry.OwnsMethod id m)
    (howns' : ∀ attr ∈ attributes, registry.OwnsAttribute id attr) :
    registry.Extends (registry.set id c') := by
  have hfind := find?_set registry id c'
  -- names lead where they led, so what was declared is declared still
  have hresolve (name : String) : (registry.set id c').resolve? name = registry.resolve? name := by
    rw [resolve?, resolve?, hfind]
  have hclass := class?_set_of_class? hc c'
  refine ⟨hfind, fun {other d} hd => ?_, fun hr => ⟨hr.indexed.set hc hname,
    hr.find?_name.set hc hname, fun {other d} hd m hm => ?_, fun {other d} hd attr hattr => ?_,
    hr.find?_object, hr.find?_string⟩⟩
  · rw [hclass]
    split
    · next hother =>
      obtain rfl := Option.some_inj.mp (hc.symm.trans (hother ▸ hd))
      exact ⟨c', rfl, hname, ⟨_, hmethods.symm⟩, ⟨_, hattrs.symm⟩⟩
    · exact ⟨d, hd, rfl, List.prefix_rfl, List.prefix_rfl⟩
  · -- a method was there before, or it is one of those that have been added
    have hm' : registry.OwnsMethod other m := by
      rcases class?_set_cases hc hd with ⟨rfl, rfl⟩ | ⟨-, hd⟩
      · rw [hmethods] at hm
        rcases List.mem_append.mp hm with hm | hm
        · exact hr.methods hc m hm
        · exact howns m hm
      · exact hr.methods hd m hm
    refine ⟨hm'.owner, fun p hp => (hresolve _).trans (hm'.params p hp), hm'.returnTy.trans ?_⟩
    rw [resolveReturn?, resolveReturn?, hresolve]
  · have hattr' : registry.OwnsAttribute other attr := by
      rcases class?_set_cases hc hd with ⟨rfl, rfl⟩ | ⟨-, hd⟩
      · rw [hattrs] at hattr
        rcases List.mem_append.mp hattr with hattr | hattr
        · exact hr.attributes hc attr hattr
        · exact howns' attr hattr
      · exact hr.attributes hd attr hattr
    exact ⟨hattr'.owner, (hresolve _).trans hattr'.type⟩

/-! ### The built-in classes -/

theorem ownsMethod_builtin (h : builtin.class? id = some c) :
    ∀ m ∈ c.methods, builtin.OwnsMethod id m := by
  have howns : ∀ m ∈ c.methods, m.owner = id ∧
      (∀ p ∈ m.params, builtin.resolve? p.typeName = some p.ty) ∧
      m.returnTy = builtin.resolveReturn? m.returnTypeName := by
    rcases class?_builtin h with ⟨rfl, rfl⟩ | ⟨rfl, rfl⟩ | ⟨rfl, rfl⟩ <;> decide +kernel
  intro m hm
  obtain ⟨howner, hparams, hreturn⟩ := howns m hm
  exact ⟨howner, hparams, hreturn⟩

theorem coherent_builtin : builtin.Coherent where
  indexed := indexed_builtin
  find?_name := named_builtin
  methods h := ownsMethod_builtin h
  attributes h attr hattr := by
    rcases class?_builtin h with ⟨rfl, rfl⟩ | ⟨rfl, rfl⟩ | ⟨rfl, rfl⟩ <;> cases hattr
  find?_object := by decide +kernel
  find?_string := by decide +kernel

theorem settled_builtin : builtin.Settled := by
  intro id c h
  rcases class?_builtin h with ⟨-, rfl⟩ | ⟨-, rfl⟩ | ⟨-, rfl⟩ <;> decide

end Lcpl.Registry
