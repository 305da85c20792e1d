import Lcpl.Proofs.Analysis.Acceptance

/-!
# Substitutability

An object of a descendant can stand where one of the ancestor is expected: whatever the ancestor
has, its descendants have too. A method may be another one, but it takes and returns values of the
same types. An attribute is the same one, since no class declares it anew.

The types of two methods agree because the names of the types do, and a name stands for one type in
the whole registry.

## Main definitions

* `Registry.Additive` — no class declares an attribute that it inherits

## Main results

* `Registry.Overrides.exists_lookupMethod?` — a descendant has every method, with the same signature
* `Registry.Additive.lookupAttribute?_eq`, `Registry.Additive.existsUnique_own` — it has every
  attribute, from the one class that declares it
* `Program.substitutable_of_analyse` — the same of the registry of every accepted program
-/

namespace Lcpl

namespace Registry

variable {registry : Registry} {id ancestor : ClassId} {name : String}

/-! ### Methods -/

/-- Names that are equal stand for types that are equal. -/
theorem map_ty_eq_of_map_typeName_eq {params params' : List ParamDef}
    (hparams : ∀ p ∈ params, registry.resolve? p.typeName = some p.ty)
    (hparams' : ∀ p ∈ params', registry.resolve? p.typeName = some p.ty)
    (h : params.map ParamDef.typeName = params'.map ParamDef.typeName) :
    params.map ParamDef.ty = params'.map ParamDef.ty := by
  have hresolved {ps : List ParamDef} (hps : ∀ p ∈ ps, registry.resolve? p.typeName = some p.ty) :
      (ps.map ParamDef.ty).map some = (ps.map ParamDef.typeName).map registry.resolve? := by
    rw [List.map_map, List.map_map]
    exact List.map_congr_left fun p hp => (hps p hp).symm
  apply List.map_injective_iff.mpr (Option.some_injective Ty)
  rw [hresolved hparams, hresolved hparams', h]

/-- The types of a method that is found are those that its declaration names. -/
theorem Coherent.ownsMethod_of_lookupMethod? (hr : registry.Coherent) {m : MethodDef}
    (h : registry.lookupMethod? id name = some m) : registry.OwnsMethod m.owner m := by
  obtain ⟨owner, -, hown⟩ := List.exists_of_findSome?_eq_some h
  obtain ⟨c, hc, hm⟩ := Option.bind_eq_some_iff.mp hown
  have howns := hr.methods hc m (List.mem_of_find?_eq_some hm)
  exact howns.owner.symm ▸ howns

/-- Methods with the same signature take and return values of the same types. -/
theorem OwnsMethod.types_eq {owner owner' : ClassId} {m m' : MethodDef}
    (h : registry.OwnsMethod owner m) (h' : registry.OwnsMethod owner' m')
    (hsignature : m'.signature = m.signature) :
    m'.params.map ParamDef.ty = m.params.map ParamDef.ty ∧ m'.returnTy = m.returnTy := by
  obtain ⟨hparams, hreturn⟩ := Prod.mk.inj hsignature
  refine ⟨map_ty_eq_of_map_typeName_eq h'.params h.params hparams, ?_⟩
  rw [h.returnTy, h'.returnTy, hreturn]

/-- A descendant has every method that an ancestor has, with the same signature. -/
theorem Overrides.exists_lookupMethod? (h : registry.Overrides)
    (hdescends : registry.Descends id ancestor) {m : MethodDef}
    (hm : registry.lookupMethod? ancestor name = some m) :
    ∃ m', registry.lookupMethod? id name = some m' ∧ m'.signature = m.signature := by
  -- the method is declared by the ancestor itself or further up
  obtain ⟨owner, habove, hown⟩ := (lookupMethod?_eq_some_iff.mp hm).exists_own
  obtain ⟨m', hfinds, hsignature⟩ := h.exists_finds (hdescends.to_reflTransGen.trans habove) hown
  exact ⟨m', lookupMethod?_eq_some_iff.mpr hfinds, hsignature⟩

/-! ### Attributes -/

/-- No class declares an attribute that a class above declares. -/
def Additive (registry : Registry) : Prop :=
  ∀ id ancestor name, registry.Descends id ancestor →
    (registry.ownAttribute? id name).isSome → registry.ownAttribute? ancestor name = none

namespace Additive

variable (h : registry.Additive)
include h

/-- If a class above declares an attribute, what is found from a class on is that one. -/
theorem finds {owner : ClassId} {a : AttributeDef}
    (hreach : Relation.ReflTransGen registry.ParentOf id owner)
    (hown : registry.ownAttribute? owner name = some a) :
    registry.Finds (registry.ownAttribute? · name) id a := by
  induction hreach using Relation.ReflTransGen.head_induction_on with
  | refl => exact .own hown
  | @head id parent hparent hreach ih =>
    refine .above ?_ hparent ih
    by_contra hsome
    have hnone := h id owner name (Relation.TransGen.head' hparent hreach)
      (Option.isSome_iff_ne_none.mpr hsome)
    rw [hown] at hnone
    cases hnone

/-- A descendant has the attributes of its ancestors. -/
theorem lookupAttribute?_eq (hdescends : registry.Descends id ancestor) {a : AttributeDef}
    (ha : registry.lookupAttribute? ancestor name = some a) :
    registry.lookupAttribute? id name = some a := by
  obtain ⟨owner, habove, hown⟩ := (lookupAttribute?_eq_some_iff.mp ha).exists_own
  exact lookupAttribute?_eq_some_iff.mpr
    (h.finds (hdescends.to_reflTransGen.trans habove) hown)

/-- An attribute that a class has is declared once, by the class or above it. -/
theorem existsUnique_own {a : AttributeDef} (ha : registry.lookupAttribute? id name = some a) :
    ∃! owner, owner ∈ id :: registry.ancestors id ∧ (registry.ownAttribute? owner name).isSome := by
  obtain ⟨owner, hreach, hown⟩ := (lookupAttribute?_eq_some_iff.mp ha).exists_own
  have hsome : (registry.ownAttribute? owner name).isSome := Option.isSome_of_mem hown
  refine ⟨owner, ⟨mem_cons_ancestors_iff.mpr hreach, hsome⟩, ?_⟩
  rintro other ⟨hmem, hother⟩
  rcases eq_or_descends hreach (mem_cons_ancestors_iff.mp hmem) with heq | hdescends | hdescends
  · exact heq.symm
  · rw [h owner other name hdescends hsome] at hother
    cases hother
  · rw [h other owner name hdescends hother] at hsome
    cases hsome

end Additive

end Registry

namespace Program

variable {p : Program} {registry : Registry} {id ancestor : ClassId} {name : String}

/-- The registry of an accepted program lists the classes that the program declares. -/
theorem eq_table_of_analyse (h : p.analyse.result = .ok registry) : registry = p.table := by
  obtain ⟨r, -, -, hdeclare, rfl, -⟩ := exists_of_analyse_ok h
  exact (declarations_eq_ok_iff.mp (declarations_of_declare hdeclare)).2

/-- Only the attributes of the program have been compared, but the built-in classes have none. -/
theorem Admitted.additive (h : p.Admitted) : p.table.Additive := by
  intro id ancestor name hdescends hsome
  obtain ⟨own, hown⟩ := Option.isSome_iff_exists.mp hsome
  obtain ⟨d, hd, -⟩ := Option.bind_eq_some_iff.mp hown
  obtain ⟨hmem, rfl⟩ := (h.declared.ownAttribute?_eq_some_iff hd).mp hown
  rcases class?_table_cases hd with (⟨-, rfl⟩ | ⟨-, rfl⟩ | ⟨-, rfl⟩) | ⟨i, c, rfl, hc, rfl⟩
  · cases hmem
  · cases hmem
  · cases hmem
  · obtain ⟨a, ha, hknown⟩ := List.mem_filterMap.mp hmem
    obtain ⟨ty, -, rfl⟩ := Option.map_eq_some_iff.mp hknown
    obtain ⟨j, hj⟩ := exists_featureAt?_of_mem hc (Class.mem_attributes_iff.mp ha)
    exact Registry.checkRedefinition_eq_ok_iff.mp (h.features i j _ hj) ancestor hdescends

/-- In an accepted program, whatever a class has its descendants have too: each method with the same
parameter types and the same return type, and each attribute from the one class that declares it. -/
theorem substitutable_of_analyse (h : p.analyse.result = .ok registry)
    (hdescends : registry.Descends id ancestor) (name : String) :
    (∀ m, registry.lookupMethod? ancestor name = some m →
      ∃ m', registry.lookupMethod? id name = some m' ∧
        m'.params.length = m.params.length ∧
        m'.params.map ParamDef.ty = m.params.map ParamDef.ty ∧
        m'.returnTy = m.returnTy) ∧
    ∀ a, registry.lookupAttribute? ancestor name = some a →
      registry.lookupAttribute? id name = some a ∧
        ∃! owner, owner ∈ id :: registry.ancestors id ∧
          (registry.ownAttribute? owner name).isSome := by
  have hadmitted := admitted_of_analyse h
  have hdeclared := hadmitted.declared
  obtain rfl := eq_table_of_analyse h
  constructor
  · intro m hm
    have hoverrides : p.table.Overrides :=
      hdeclared.overrides_iff.mpr fun i j m hm => hadmitted.features i j _ hm
    obtain ⟨m', hm', hsignature⟩ := hoverrides.exists_lookupMethod? hdescends hm
    have howns := hdeclared.coherent.ownsMethod_of_lookupMethod? hm
    have howns' := hdeclared.coherent.ownsMethod_of_lookupMethod? hm'
    obtain ⟨hparams, hreturn⟩ := howns.types_eq howns' hsignature
    exact ⟨m', hm', by simpa using congrArg List.length hparams, hparams, hreturn⟩
  · intro a ha
    have ha' := hadmitted.additive.lookupAttribute?_eq hdescends ha
    exact ⟨ha', hadmitted.additive.existsUnique_own ha'⟩

/-- A class with an attribute and a method, a descendant that overrides the method, and one in
between that declares nothing. -/
def succession : Program where
  line := 1
  classes := [
    { line := 1, name := "Heir", parent := some "Regent", recordedParent := none
      features := [.method (.declared 2 "rule" [.declared 2 "years" "Int"] "Main" none)] },
    { line := 3, name := "Regent", parent := some "Main", recordedParent := none, features := [] },
    { line := 4, name := "Main", parent := some "IO", recordedParent := none
      features := [
        .attribute (.declared 5 "realm" "String" none),
        .method (.declared 6 "rule" [.declared 6 "term" "Int"] "Main" none),
        .method (.declared 7 "main" [] "void" none)] }]
  exprs := ⟨#[]⟩
  builtins := []

/-- The heir has its own method and the attribute of the class at the top. -/
theorem substitutable_of_analyse_succession :
    ∃ registry, succession.analyse.result = .ok registry ∧
      registry.Descends ⟨3⟩ ⟨5⟩ ∧
      (∃ m m', registry.lookupMethod? ⟨5⟩ "rule" = some m ∧
        registry.lookupMethod? ⟨3⟩ "rule" = some m' ∧ m'.owner ≠ m.owner ∧
        m'.params.map ParamDef.ty = m.params.map ParamDef.ty ∧ m'.returnTy = m.returnTy) ∧
      ∃ a, registry.lookupAttribute? ⟨3⟩ "realm" = some a ∧
        ∃! owner, owner ∈ ⟨3⟩ :: registry.ancestors ⟨3⟩ ∧
          (registry.ownAttribute? owner "realm").isSome := by
  obtain ⟨registry, hok⟩ : ∃ registry, succession.analyse.result = .ok registry :=
    exists_of_toBool (by decide +kernel)
  have htable : registry = succession.table := eq_table_of_analyse hok
  have hdescends : registry.Descends ⟨3⟩ ⟨5⟩ := by
    rw [htable]
    exact Registry.mem_ancestors_iff.mp (by decide +kernel)
  obtain ⟨m, hm, howner⟩ : ∃ m, registry.lookupMethod? ⟨5⟩ "rule" = some m ∧ m.owner = ⟨5⟩ := by
    rw [htable]
    exact Option.map_eq_some_iff.mp (by decide +kernel)
  obtain ⟨a, ha⟩ : ∃ a, registry.lookupAttribute? ⟨5⟩ "realm" = some a := by
    rw [htable]
    exact Option.isSome_iff_exists.mp (by decide +kernel)
  obtain ⟨m', hm', -, hparams, hreturn⟩ := (substitutable_of_analyse hok hdescends "rule").1 m hm
  have howner' : m'.owner = ⟨3⟩ := by
    have hown : (succession.table.lookupMethod? ⟨3⟩ "rule").map MethodDef.owner = some ⟨3⟩ := by
      decide +kernel
    rw [htable] at hm'
    rw [hm'] at hown
    exact Option.some_inj.mp hown
  have hattribute := (substitutable_of_analyse hok hdescends "realm").2 a ha
  refine ⟨registry, hok, hdescends, ⟨m, m', hm, hm', ?_, hparams, hreturn⟩, a, hattribute⟩
  rw [howner, howner']
  decide

end Program

end Lcpl
