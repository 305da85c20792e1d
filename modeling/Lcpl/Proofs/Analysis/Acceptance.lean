import Lcpl.Proofs.Analysis.Admission
import Lcpl.Proofs.Analysis.Outline
import Lcpl.Proofs.Registry.Cycles

/-!
# Acceptance without bodies

What an analysis demands besides the bodies is a condition on the outline of the program, and can be
said in terms of names: how the classes inherit from each other, and what they declare. The
condition on methods is on all the classes above, and not only on the nearest one that declares the
method.

## Main definitions

* `Outline.Acceptable` — the condition on an outline
* `Program.bodiless` — a program without method bodies and initial values

## Main results

* `Program.admitted_iff` — the demands of the analysis are those of the condition
* `Program.analyse_bodiless_iff` — without its bodies, a program is accepted if and only if its
  outline is acceptable, and with them only then
-/

namespace Lcpl

/-- What is demanded of the classes of a program, one by one and together. -/
structure Outline.Acceptable (o : Outline) : Prop extends o.WellFormed where
  acyclic : ∀ name, ¬ Relation.TransGen o.Inherits name name
  overrides : ∀ c ∈ o.all, ∀ ancestor ∈ o.all,
    Relation.TransGen o.Inherits c.name ancestor.name →
      ∀ m ∈ c.methods, ∀ m' ∈ ancestor.methods, m.name = m'.name →
        m.params = m'.params ∧ m.returnType = m'.returnType
  redefinitions : ∀ c ∈ o.all, ∀ ancestor ∈ o.all,
    Relation.TransGen o.Inherits c.name ancestor.name →
      ∀ a ∈ c.attributes, ∀ a' ∈ ancestor.attributes, a.name ≠ a'.name
  entry : ∃ c ∈ o.all, c.name = Vocabulary.mainClass ∧
    ∃ m, o.Defines Vocabulary.mainMethod c.name m ∧ m.params = []

/-! ### Features of the program -/

theorem Class.mem_methods_iff {c : Class} {m : Method} :
    m ∈ c.methods ↔ .method m ∈ c.features := by
  rw [methods, List.mem_filterMap]
  constructor
  · rintro ⟨f, hf, hm⟩
    rcases f with m' | a
    · exact Option.some_inj.mp hm ▸ hf
    · cases hm
  · intro hm
    exact ⟨_, hm, rfl⟩

theorem Class.mem_attributes_iff {c : Class} {a : Attribute} :
    a ∈ c.attributes ↔ .attribute a ∈ c.features := by
  rw [attributes, List.mem_filterMap]
  constructor
  · rintro ⟨f, hf, ha⟩
    rcases f with m | a'
    · cases ha
    · exact Option.some_inj.mp ha ▸ hf
  · intro ha
    exact ⟨_, ha, rfl⟩

namespace Program

variable {p : Program}

theorem exists_featureAt?_of_mem {i : Nat} {c : Class} {f : Feature} (hc : p.classes[i]? = some c)
    (hf : f ∈ c.features) : ∃ j, featureAt? p.classes i j = some f := by
  obtain ⟨j, hj⟩ := List.mem_iff_getElem?.mp hf
  exact ⟨j, by rw [featureAt?, hc, Option.bind_some, hj]⟩

theorem exists_of_featureAt? {i j : Nat} {f : Feature} (h : featureAt? p.classes i j = some f) :
    ∃ c, p.classes[i]? = some c ∧ f ∈ c.features := by
  obtain ⟨c, hc, hf⟩ := Option.bind_eq_some_iff.mp h
  exact ⟨c, hc, List.mem_of_getElem? hf⟩

namespace WellDeclared

variable (h : p.WellDeclared) {id ancestor : ClassId} {name : String}
include h

/-! ### Methods -/

/-- The methods of the built-in classes override nothing. -/
theorem overridden?_builtin {d : ClassDef} (hd : Registry.builtin.class? id = some d)
    {own : MethodDef} (hown : p.table.ownMethod? id name = some own) :
    p.table.overridden? id name = none := by
  apply Option.eq_none_iff_forall_ne_some.mpr
  intro inherited hinherited
  obtain ⟨parent, hparent, hfinds⟩ := Registry.overridden?_eq_some_iff.mp hinherited
  have hd' : p.table.class? id = some d :=
    (class?_table_of_lt (Registry.lt_size_of_class? hd)).trans hd
  -- what has a parent is right below `Object`, and shares no method name with it
  have habove : parent = .object ∧
      ∀ own ∈ d.methods, ∀ m ∈ ClassDef.object.methods, m.name ≠ own.name := by
    rw [Registry.ParentOf, Registry.parent?, hd', Option.bind_some] at hparent
    rcases Registry.class?_builtin hd with ⟨-, rfl⟩ | ⟨-, rfl⟩ | ⟨-, rfl⟩
    · cases hparent
    · exact ⟨(Option.some_inj.mp hparent).symm, by decide⟩
    · exact ⟨(Option.some_inj.mp hparent).symm, by decide⟩
  obtain ⟨rfl, hnone⟩ := habove
  cases hfinds with
  | own hm =>
    obtain ⟨hmem, rfl⟩ := (h.ownMethod?_eq_some_iff hd').mp hown
    obtain ⟨hmem', hname⟩ := (h.ownMethod?_eq_some_iff (class?_object p)).mp hm
    exact hnone own hmem inherited hmem' hname
  | above _ hparent => exact not_parentOf_object hparent

/-- It is enough to compare the methods of the program. -/
theorem overrides_iff :
    p.table.Overrides ↔
      ∀ i j m, featureAt? p.classes i j = some (.method m) →
        p.table.checkOverride (Analysis.classId i) m.name = .ok () := by
  constructor
  · intro hoverrides i j m hm
    obtain ⟨c, hc, hm⟩ := exists_of_featureAt? hm
    have hmem : m ∈ c.methods := Class.mem_methods_iff.mpr hm
    have hown : p.table.ownMethod? (Analysis.classId i) m.name = some (m.known p.names _) :=
      (h.ownMethod?_eq_some_iff (class?_table hc)).mpr ⟨List.mem_map_of_mem hmem, rfl⟩
    exact Registry.checkOverride_eq_ok_iff.mpr
      ⟨_, hown, fun inherited hinherited => hoverrides _ _ _ _ hown hinherited⟩
  · intro hchecks id name own inherited hown hinherited
    obtain ⟨d, hd, -⟩ := Option.bind_eq_some_iff.mp hown
    -- the methods of the built-in classes override nothing
    by_cases hbuiltin : id.index < Registry.builtin.size
    · rw [class?_table_of_lt hbuiltin] at hd
      rw [h.overridden?_builtin hd hown] at hinherited
      cases hinherited
    · obtain ⟨i, rfl⟩ := Registry.exists_classId_of_le (Nat.le_of_not_lt hbuiltin)
      have hentry := hd
      rw [table, Registry.class?_listing] at hentry
      obtain ⟨c, hc, rfl⟩ := Option.map_eq_some_iff.mp hentry
      obtain ⟨hmem, rfl⟩ := (h.ownMethod?_eq_some_iff hd).mp hown
      obtain ⟨m, hm, rfl⟩ := List.mem_map.mp hmem
      obtain ⟨j, hj⟩ := exists_featureAt?_of_mem hc (Class.mem_methods_iff.mp hm)
      obtain ⟨own, hown', hsignature⟩ := Registry.checkOverride_eq_ok_iff.mp (hchecks i j m hj)
      obtain rfl := Option.some_inj.mp (hown'.symm.trans hown)
      exact hsignature inherited hinherited

theorem overrides_outline_iff :
    p.table.Overrides ↔
      ∀ c ∈ p.outline.all, ∀ ancestor ∈ p.outline.all,
        Relation.TransGen p.outline.Inherits c.name ancestor.name →
          ∀ m ∈ c.methods, ∀ m' ∈ ancestor.methods, m.name = m'.name →
            m.params = m'.params ∧ m.returnType = m'.returnType := by
  constructor
  · intro hoverrides c hc ancestor hancestor hinherits m hm m' hm' hname
    obtain ⟨id, d, hd, rfl⟩ := h.mem_all_iff.mp hc
    obtain ⟨above, e, he, rfl⟩ := h.mem_all_iff.mp hancestor
    obtain ⟨own, hown, rfl⟩ := List.mem_map.mp hm
    obtain ⟨inherited, hinherited, rfl⟩ := List.mem_map.mp hm'
    have hdescends := (h.transGen_inherits_iff_of_class? hd he).mp hinherits
    have hown := (h.ownMethod?_eq_some_iff hd).mpr ⟨hown, hname⟩
    have hinherited := (h.ownMethod?_eq_some_iff he).mpr ⟨hinherited, rfl⟩
    exact Prod.mk.inj (hoverrides.signature_eq hdescends hown hinherited)
  · intro hoverrides id name own inherited hown hoverridden
    obtain ⟨above, habove, hinherited⟩ := List.exists_of_findSome?_eq_some hoverridden
    obtain ⟨d, hd, -⟩ := Option.bind_eq_some_iff.mp hown
    obtain ⟨e, he, -⟩ := Option.bind_eq_some_iff.mp hinherited
    have hinherits := (h.transGen_inherits_iff_of_class? hd he).mpr
      (Registry.mem_ancestors_iff.mp habove)
    obtain ⟨hmem, rfl⟩ := (h.ownMethod?_eq_some_iff hd).mp hown
    obtain ⟨hmem', hname⟩ := (h.ownMethod?_eq_some_iff he).mp hinherited
    obtain ⟨hparams, hreturn⟩ := hoverrides _ (h.head_mem_all hd) _ (h.head_mem_all he) hinherits
      own.head (List.mem_map_of_mem hmem) inherited.head (List.mem_map_of_mem hmem') hname.symm
    exact Prod.ext hparams hreturn

/-! ### Attributes -/

theorem redefinitions_iff :
    (∀ i j a, featureAt? p.classes i j = some (.attribute a) →
        p.table.checkRedefinition (Analysis.classId i) a.name = .ok ()) ↔
      ∀ c ∈ p.outline.all, ∀ ancestor ∈ p.outline.all,
        Relation.TransGen p.outline.Inherits c.name ancestor.name →
          ∀ a ∈ c.attributes, ∀ a' ∈ ancestor.attributes, a.name ≠ a'.name := by
  constructor
  · intro hchecks c hc ancestor hancestor hinherits a ha a' ha' hname
    obtain ⟨id, d, hd, rfl⟩ := h.mem_all_iff.mp hc
    obtain ⟨above, e, he, rfl⟩ := h.mem_all_iff.mp hancestor
    obtain ⟨own, hown, rfl⟩ := List.mem_map.mp ha
    obtain ⟨inherited, hinherited, rfl⟩ := List.mem_map.mp ha'
    have hdescends := (h.transGen_inherits_iff_of_class? hd he).mp hinherits
    have hinherited := (h.ownAttribute?_eq_some_iff he).mpr ⟨hinherited, hname.symm⟩
    -- the built-in classes have no attributes
    rcases class?_table_cases hd with (⟨-, rfl⟩ | ⟨-, rfl⟩ | ⟨-, rfl⟩) | ⟨i, c, rfl, hc', rfl⟩
    · cases hown
    · cases hown
    · cases hown
    · obtain ⟨a, hmem, hknown⟩ := List.mem_filterMap.mp hown
      obtain ⟨ty, -, rfl⟩ := Option.map_eq_some_iff.mp hknown
      obtain ⟨j, hj⟩ := exists_featureAt?_of_mem hc' (Class.mem_attributes_iff.mp hmem)
      have hnone := Registry.checkRedefinition_eq_ok_iff.mp (hchecks i j a hj) above hdescends
      rw [show p.table.ownAttribute? above a.name = some inherited from hinherited] at hnone
      cases hnone
  · intro houtline i j a ha
    apply Registry.checkRedefinition_eq_ok_iff.mpr
    intro above hdescends
    apply Option.eq_none_iff_forall_ne_some.mpr
    intro inherited hinherited
    obtain ⟨c, hc, ha⟩ := exists_of_featureAt? ha
    have hd := class?_table hc
    obtain ⟨e, he, -⟩ := Option.bind_eq_some_iff.mp hinherited
    obtain ⟨hinherited, hname⟩ := (h.ownAttribute?_eq_some_iff he).mp hinherited
    have hmem : a.head ∈ (c.known p.names i).head.attributes := by
      have hsigned := h.signed c (List.mem_of_getElem? hc)
      rw [head_known hsigned]
      exact List.mem_map_of_mem (Class.mem_attributes_iff.mpr ha)
    exact houtline _ (h.head_mem_all hd) _ (h.head_mem_all he)
      ((h.transGen_inherits_iff_of_class? hd he).mpr hdescends) a.head hmem inherited.head
      (List.mem_map_of_mem hinherited) hname.symm

/-! ### The entry point -/

theorem checkEntry_iff {line : Line} :
    p.table.checkEntry line = .ok () ↔
      ∃ c ∈ p.outline.all, c.name = Vocabulary.mainClass ∧
        ∃ m, p.outline.Defines Vocabulary.mainMethod c.name m ∧ m.params = [] := by
  rw [Registry.checkEntry_eq_ok_iff]
  constructor
  · rintro ⟨id, m, hfind, hlookup, hparams⟩
    obtain ⟨d, hd, hname⟩ := p.indexed_table.exists_class? hfind
    have hdefines := (h.defines_iff hfind).mpr
      ⟨m, Registry.lookupMethod?_eq_some_iff.mp hlookup, rfl⟩
    refine ⟨d.head, h.head_mem_all hd, hname, m.head, ?_, by simp [MethodDef.head, hparams]⟩
    rwa [show d.head.name = Vocabulary.mainClass from hname]
  · rintro ⟨c, hc, hname, m, hdefines, hparams⟩
    obtain ⟨id, d, hd, rfl⟩ := h.mem_all_iff.mp hc
    rw [hname] at hdefines
    have hfind : p.table.find? Vocabulary.mainClass = some id := by
      rw [← hname]
      exact h.coherent.find?_name hd
    obtain ⟨found, hfinds, rfl⟩ := (h.defines_iff hfind).mp hdefines
    exact ⟨id, found, hfind, Registry.lookupMethod?_eq_some_iff.mpr hfinds,
      List.map_eq_nil_iff.mp hparams⟩

end WellDeclared

/-! ### Acceptance -/

/-- The demands that do not concern bodies are those on the outline. -/
theorem admitted_iff : p.Admitted ↔ p.outline.Acceptable := by
  constructor
  · intro h
    have hd := h.declared
    have hmethods : p.table.Overrides := hd.overrides_iff.mpr fun i j m hm => h.features i j _ hm
    exact {
      toWellFormed := wellDeclared_iff.mp hd
      acyclic := hd.acyclic_iff.mpr (Registry.checkCycles_eq_ok_iff.mp h.acyclic)
      overrides := hd.overrides_outline_iff.mp hmethods
      redefinitions := hd.redefinitions_iff.mp fun i j a ha => h.features i j _ ha
      entry := hd.checkEntry_iff.mp h.entry }
  · intro h
    have hd := wellDeclared_iff.mpr h.toWellFormed
    have hmethods := hd.overrides_iff.mp (hd.overrides_outline_iff.mpr h.overrides)
    have hattributes := hd.redefinitions_iff.mpr h.redefinitions
    refine ⟨hd, Registry.checkCycles_eq_ok_iff.mpr (hd.acyclic_iff.mp h.acyclic), ?_,
      hd.checkEntry_iff.mpr h.entry⟩
    intro i j f hf
    rcases f with m | a
    · exact hmethods i j m hf
    · exact hattributes i j a hf

end Program

/-! ### Programs without bodies -/

/-- The feature without its root. -/
def Feature.rootless : Feature → Feature
  | .method m => .method { m with body := none }
  | .attribute a => .attribute { a with init := none }

/-- The class without method bodies and initial values. -/
def Class.bodiless (c : Class) : Class := { c with features := c.features.map Feature.rootless }

theorem Class.head_bodiless (c : Class) : c.bodiless.head = c.head := by
  have hmethods : c.bodiless.methods.map Method.head = c.methods.map Method.head := by
    rw [methods, bodiless, methods, List.filterMap_map, List.map_filterMap, List.map_filterMap]
    refine List.filterMap_congr fun f _ => ?_
    rcases f with m | a <;> rfl
  have hattributes : c.bodiless.attributes.map Attribute.head =
      c.attributes.map Attribute.head := by
    rw [attributes, bodiless, attributes, List.filterMap_map, List.map_filterMap,
      List.map_filterMap]
    refine List.filterMap_congr fun f _ => ?_
    rcases f with m | a <;> rfl
  rw [head, hmethods, hattributes]
  rfl

namespace Program

/-- The program without method bodies and initial values. -/
def bodiless (p : Program) : Program := { p with classes := p.classes.map Class.bodiless }

theorem outline_bodiless (p : Program) : p.bodiless.outline = p.outline := by
  simp [outline, bodiless, Function.comp_def, Class.head_bodiless]

theorem root_of_bodiless {p : Program} {i j : Nat} {f : Feature}
    (h : featureAt? p.bodiless.classes i j = some f) : f.root = none := by
  obtain ⟨c, hc, hf⟩ := Option.bind_eq_some_iff.mp h
  rw [bodiless, List.getElem?_map] at hc
  obtain ⟨c, -, rfl⟩ := Option.map_eq_some_iff.mp hc
  rw [Class.bodiless, List.getElem?_map] at hf
  obtain ⟨f, -, rfl⟩ := Option.map_eq_some_iff.mp hf
  rcases f with m | a <;> rfl

/-- Without its bodies, a program is accepted if and only if its outline is acceptable. With its
bodies it is accepted only then. -/
theorem analyse_bodiless_iff (p : Program) :
    ((∃ registry, p.bodiless.analyse.result = .ok registry) ↔ p.outline.Acceptable) ∧
      ((∃ registry, p.analyse.result = .ok registry) → p.outline.Acceptable) := by
  refine ⟨⟨?_, ?_⟩, ?_⟩
  · rintro ⟨registry, h⟩
    rw [← outline_bodiless]
    exact admitted_iff.mp (admitted_of_analyse h)
  · intro h
    rw [← outline_bodiless] at h
    exact exists_analyse_of_admitted (fun i j f hf => root_of_bodiless hf) (admitted_iff.mpr h)
  · rintro ⟨registry, h⟩
    exact admitted_iff.mp (admitted_of_analyse h)

/-- A class that overrides a method of its parent's parent, which overrides a native one. -/
def overrider : Program where
  line := 1
  classes := [
    { line := 1, name := "Leaf", parent := some "Middle", recordedParent := none
      features := [
        .attribute (.declared 2 "last" "String" none),
        .method (.declared 3 "out" [.declared 3 "text" "String"] "IO" none)] },
    { line := 4, name := "Middle", parent := some "Main", recordedParent := none, features := [] },
    { line := 5, name := "Main", parent := some "IO", recordedParent := none
      features := [
        .method (.declared 6 "out" [.declared 6 "line" "String"] "IO" none),
        .method (.declared 7 "main" [] "void" (some ⟨0⟩))] }]
  exprs := ⟨#[⟨7, .intConstant 1, none⟩]⟩
  builtins := []

/-- The program is accepted with and without the body of its entry point. -/
theorem analyse_bodiless_iff_overrider :
    (∃ registry, overrider.analyse.result = .ok registry) ∧ overrider.outline.Acceptable ∧
      ∃ registry, overrider.bodiless.analyse.result = .ok registry := by
  have hok : ∃ registry, overrider.analyse.result = .ok registry :=
    exists_of_toBool (by decide +kernel)
  have hacceptable := (analyse_bodiless_iff overrider).2 hok
  exact ⟨hok, hacceptable, (analyse_bodiless_iff overrider).1.mpr hacceptable⟩

end Program

end Lcpl
