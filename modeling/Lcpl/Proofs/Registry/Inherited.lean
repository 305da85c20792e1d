import Lcpl.Proofs.Registry.Descent
import Lcpl.Analysis.Override

/-!
# Inherited features

A feature is looked for in a class, and then in one ancestor after the other. What is found is found
first: in the class itself or, if that has nothing of the name, in its parent in the same way.

A method is compared only with the nearest one that it overrides. That is enough for all of them,
since signatures that agree with the same one agree with each other, and every method on the way up
has been compared too.

## Main definitions

* `Registry.Finds` — what a class has of something, by itself or else through its parent
* `MethodDef.signature` — the part of a method that may not change in a descendant
* `Registry.Overrides` — each method has the signature of the nearest one that it overrides

## Main results

* `Registry.lookupMethod?_eq_some_iff`, `Registry.overridden?_eq_some_iff` — the look-ups
* `Registry.checkOverride_eq_ok_iff`, `Registry.checkRedefinition_eq_ok_iff`,
  `Registry.checkEntry_eq_ok_iff` — when the checks succeed
* `Registry.Overrides.signature_eq` — a method has the signature of every one that it overrides, if
  each method has that of the nearest one
-/

namespace Lcpl

/-- The names of the types of the parameters, and of the return type. -/
def MethodDef.signature (m : MethodDef) : List String × String :=
  (m.params.map ParamDef.typeName, m.returnTypeName)

namespace Registry

/-! ### The nearest feature -/

/-- The class has `x` by itself, or it has nothing by itself and its parent has `x` in this way. -/
inductive Finds {α : Type} (registry : Registry) (own? : ClassId → Option α) :
    ClassId → α → Prop where
  | own {id x} (h : own? id = some x) : Finds registry own? id x
  | above {id parent x} (hnone : own? id = none) (hparent : registry.ParentOf id parent)
      (h : Finds registry own? parent x) : Finds registry own? id x

variable {α : Type} {registry : Registry} {id parent ancestor : ClassId} {own? : ClassId → Option α}
  {x y : α} {name : String}

namespace Finds

theorem unique (h : registry.Finds own? id x) (h' : registry.Finds own? id y) : x = y := by
  induction h with
  | own hx =>
    cases h' with
    | own hy => exact Option.some_inj.mp (hx.symm.trans hy)
    | above hnone => simp [hx] at hnone
  | above hnone hparent _ ih =>
    cases h' with
    | own hy => simp [hnone] at hy
    | above _ hparent' h' =>
      obtain rfl := hparent.eq hparent'
      exact ih h'

theorem exists_own (h : registry.Finds own? id x) :
    ∃ owner, Relation.ReflTransGen registry.ParentOf id owner ∧ own? owner = some x := by
  induction h with
  | own hx => exact ⟨_, .refl, hx⟩
  | above _ hparent _ ih =>
    obtain ⟨owner, hreach, hx⟩ := ih
    exact ⟨owner, .head hparent hreach, hx⟩

theorem of_findSome?_chain (steps : Nat)
    (h : (registry.chain steps (some id)).findSome? own? = some x) :
    registry.Finds own? id x := by
  induction steps generalizing id with
  | zero => cases h
  | succ steps ih =>
    rw [chain, List.findSome?_cons] at h
    cases hown : own? id with
    | some z =>
      rw [hown] at h
      exact .own (hown.trans h)
    | none =>
      rw [hown] at h
      cases hparent : registry.parent? id with
      | none =>
        rw [hparent] at h
        cases steps <;> cases h
      | some parent =>
        rw [hparent] at h
        exact .above hown hparent (ih h)

end Finds

/-- A walk that is long enough to meet every class above finds what there is to find. -/
theorem findSome?_chain_eq_some_iff (steps : Nat)
    (hmeets : ∀ owner, Relation.ReflTransGen registry.ParentOf id owner →
      owner ∈ registry.chain steps (some id)) :
    (registry.chain steps (some id)).findSome? own? = some x ↔ registry.Finds own? id x := by
  refine ⟨.of_findSome?_chain steps, fun h => ?_⟩
  cases hfound : (registry.chain steps (some id)).findSome? own? with
  | some z => rw [(Finds.of_findSome?_chain steps hfound).unique h]
  | none =>
    obtain ⟨owner, hreach, hx⟩ := h.exists_own
    rw [List.findSome?_eq_none_iff.mp hfound owner (hmeets owner hreach)] at hx
    cases hx

/-- A class and its ancestors are what is reached by going up from it. -/
theorem mem_cons_ancestors_iff :
    ancestor ∈ id :: registry.ancestors id ↔
      Relation.ReflTransGen registry.ParentOf id ancestor := by
  rw [List.mem_cons, mem_ancestors_iff, Relation.reflTransGen_iff_eq_or_transGen]
  rfl

theorem lookupMethod?_eq_some_iff {m : MethodDef} :
    registry.lookupMethod? id name = some m ↔
      registry.Finds (registry.ownMethod? · name) id m :=
  findSome?_chain_eq_some_iff (registry.size + 1) fun _ => mem_cons_ancestors_iff.mpr

theorem lookupAttribute?_eq_some_iff {a : AttributeDef} :
    registry.lookupAttribute? id name = some a ↔
      registry.Finds (registry.ownAttribute? · name) id a :=
  findSome?_chain_eq_some_iff (registry.size + 1) fun _ => mem_cons_ancestors_iff.mpr

/-- What a method overrides is what the parent has, by itself or through its own parent. -/
theorem overridden?_eq_some_iff {m : MethodDef} :
    registry.overridden? id name = some m ↔
      ∃ parent, registry.ParentOf id parent ∧
        registry.Finds (registry.ownMethod? · name) parent m := by
  -- the list of ancestors has all of them, whether or not there is a cycle
  have hmeets (owner : ClassId) : registry.Descends id owner →
      owner ∈ registry.chain registry.size (registry.parent? id) := mem_ancestors_iff.mpr
  rw [overridden?, ancestors]
  unfold ParentOf
  cases hparent : registry.parent? id with
  | none =>
    have hempty : registry.chain registry.size none = [] := by
      cases registry.size <;> rfl
    simp [hempty]
  | some parent =>
    rw [hparent] at hmeets
    rw [findSome?_chain_eq_some_iff _ fun owner hreach =>
      hmeets owner (Relation.TransGen.head' hparent hreach)]
    simp

/-! ### Signatures -/

/-- Lists of one length are compared to the end, and are found alike if and only if the names of the
types are. -/
theorem exists_changedParam?_eq_ok {owns inheriteds : List ParamDef}
    (hlength : owns.length = inheriteds.length) :
    ∃ param?, changedParam? owns inheriteds = .ok param? ∧
      (param? = none ↔ owns.map ParamDef.typeName = inheriteds.map ParamDef.typeName) := by
  induction owns generalizing inheriteds with
  | nil =>
    cases inheriteds with
    | nil => simp [changedParam?]
    | cons => cases hlength
  | cons own owns ih =>
    cases inheriteds with
    | nil => cases hlength
    | cons inherited inheriteds =>
      obtain ⟨param?, hrest, hsame⟩ := ih (Nat.succ.inj hlength)
      rw [changedParam?, List.map_cons, List.map_cons, List.cons.injEq]
      by_cases htype : own.typeName = inherited.typeName
      · exact ⟨param?, by rw [if_pos htype, hrest], by simpa [htype] using hsame⟩
      · exact ⟨some own.name, if_neg htype, by simp [htype]⟩

/-- Two methods pass the comparison if and only if they have the same signature. -/
theorem checkSignature_eq_ok_iff {own inherited : MethodDef} :
    checkSignature own inherited = .ok () ↔ own.signature = inherited.signature := by
  rw [checkSignature, MethodDef.signature, MethodDef.signature, Prod.mk.injEq]
  by_cases hlength : own.params.length = inherited.params.length
  · obtain ⟨param?, hparams, hsame⟩ := exists_changedParam?_eq_ok hlength
    rw [if_neg (not_not.mpr hlength), hparams, ← hsame]
    by_cases hreturn : own.returnTypeName = inherited.returnTypeName
    · rw [if_neg (not_not.mpr hreturn)]
      cases param? <;> simp [hreturn]
    · rw [if_pos hreturn]
      simp [hreturn]
  · rw [if_pos hlength]
    refine iff_of_false nofun fun h => hlength ?_
    simpa using congrArg List.length h.1

theorem checkOverride_eq_ok_iff :
    registry.checkOverride id name = .ok () ↔
      ∃ own, registry.ownMethod? id name = some own ∧
        ∀ inherited, registry.overridden? id name = some inherited →
          own.signature = inherited.signature := by
  unfold checkOverride
  cases registry.ownMethod? id name with
  | none => simp
  | some own =>
    cases registry.overridden? id name with
    | none => simp
    | some inherited => simp [checkSignature_eq_ok_iff]

/-- An attribute passes the check if and only if no class above declares it. -/
theorem checkRedefinition_eq_ok_iff :
    registry.checkRedefinition id name = .ok () ↔
      ∀ ancestor, registry.Descends id ancestor → registry.ownAttribute? ancestor name = none := by
  have hany : ((registry.ancestors id).any fun ancestor =>
      (registry.ownAttribute? ancestor name).isSome) = false ↔
      ∀ ancestor, registry.Descends id ancestor → registry.ownAttribute? ancestor name = none := by
    simp [List.any_eq_false, mem_ancestors_iff]
  rw [← hany, checkRedefinition]
  split
  · next htaken => cases registry.class? id <;> simp [htaken]
  · next hfree => simpa using hfree

theorem checkEntry_eq_ok_iff {line : Line} :
    registry.checkEntry line = .ok () ↔
      ∃ id m, registry.find? Vocabulary.mainClass = some id ∧
        registry.lookupMethod? id Vocabulary.mainMethod = some m ∧ m.params = [] := by
  unfold checkEntry
  cases registry.find? Vocabulary.mainClass with
  | none => simp
  | some id =>
    cases hlookup : registry.lookupMethod? id Vocabulary.mainMethod with
    | none => simp [hlookup]
    | some m =>
      obtain ⟨_, _, _, params, _, _⟩ := m
      cases params <;> simp [hlookup]

/-! ### All that a method overrides -/

/-- Each method has the signature of the nearest one that it overrides. -/
def Overrides (registry : Registry) : Prop :=
  ∀ id name own inherited, registry.ownMethod? id name = some own →
    registry.overridden? id name = some inherited → own.signature = inherited.signature

/-- What is found from a class on has the signature of every method of the name above. -/
theorem Overrides.exists_finds (h : registry.Overrides) {inherited : MethodDef}
    (hreach : Relation.ReflTransGen registry.ParentOf id ancestor)
    (hinherited : registry.ownMethod? ancestor name = some inherited) :
    ∃ m, registry.Finds (registry.ownMethod? · name) id m ∧ m.signature = inherited.signature := by
  induction hreach using Relation.ReflTransGen.head_induction_on with
  | refl => exact ⟨inherited, .own hinherited, rfl⟩
  | @head id parent hparent _ ih =>
    obtain ⟨m, hfinds, hsignature⟩ := ih
    cases hown : registry.ownMethod? id name with
    | none => exact ⟨m, .above hown hparent hfinds, hsignature⟩
    | some own =>
      have hoverridden := overridden?_eq_some_iff.mpr ⟨parent, hparent, hfinds⟩
      exact ⟨own, .own hown, (h id name own m hown hoverridden).trans hsignature⟩

/-- A method has the signature of every method that it overrides, not only of the nearest one. -/
theorem Overrides.signature_eq (h : registry.Overrides) {own inherited : MethodDef}
    (hdescends : registry.Descends id ancestor) (hown : registry.ownMethod? id name = some own)
    (hinherited : registry.ownMethod? ancestor name = some inherited) :
    own.signature = inherited.signature := by
  obtain ⟨m, hfinds, hsignature⟩ := h.exists_finds hdescends.to_reflTransGen hinherited
  rwa [hfinds.unique (.own hown)] at hsignature

end Registry

end Lcpl
