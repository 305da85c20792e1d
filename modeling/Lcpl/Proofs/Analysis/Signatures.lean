import Mathlib.Data.List.Forall2
import Lcpl.Proofs.Analysis.Annotations
import Lcpl.Proofs.Analysis.Course
import Lcpl.Proofs.Analysis.Inheritance

/-!
# Signatures in the tree and in the registry

What is known of the features of a class stands in two places: in the registry, and in the tree,
where the declarations are annotated by name. After an analysis that succeeds the two agree, with
one reservation. An annotation is written where there is something to write, and is not removed
where there is nothing. A tree may have been analysed before and edited since. Then a method whose
return type no longer resolves keeps the return type recorded earlier, and an attribute that has
lost its initial value keeps the receiver recorded for it. These are the only annotations of a
signature that can be left over.

## Main definitions

* `Method.Agrees`, `Attribute.Agrees`, `Class.Agrees` — the annotations of a declaration are those
  of its definition in the registry, beside what the declaration had before
* `Registry.Describes` — the same for all classes of a program
* `Feature.Leftover` — a feature with an annotation that an analysis does not remove

## Main results

* `Registry.describes_bare_iff` — nothing is left over if and only if the annotations are those that
  the program without annotations would have
* `Program.describes_of_analyse` — the annotations after an analysis that succeeds
-/

namespace Lcpl

/-! ### Agreement -/

/-- The recorded type is the name of a type. -/
def Registry.Labels (registry : Registry) (ty : Ty) (recorded : Option TypeName) : Prop :=
  ∃ type, registry.label? ty = some type ∧ recorded = some type

section

variable (registry : Registry) (id : ClassId) (className : String)

/-- What the tree says of a parameter is what the registry says. -/
structure Param.Agrees (param : Param) (d : ParamDef) : Prop where
  name : param.name = d.name
  typeName : param.typeName = d.typeName
  type : registry.Labels d.ty param.recordedType

/-- What the tree says of a method is what the registry says. Where the return type does not
resolve, there stands what stood there before. -/
structure Method.Agrees (before m : Method) (d : MethodDef) : Prop where
  owner : m.recordedOwner = some className
  receiver : m.recordedSelf = some (.receiver m.line className)
  params : List.Forall₂ (Param.Agrees registry) m.params d.params
  returnTy : d.returnTy = registry.resolveReturn? before.returnType
  resolved : ∀ ty, d.returnTy = some ty → registry.Labels ty m.recordedReturn
  unresolved : d.returnTy = none → m.recordedReturn = before.recordedReturn

/-- What the tree says of an attribute is what the registry says. Without an initial value, the
receiver is what it was before. -/
structure Attribute.Agrees (before a : Attribute) (d : AttributeDef) : Prop where
  type : registry.Labels d.ty a.recordedType
  init : a.init.isSome = before.init.isSome
  receiver : a.init.isSome → a.recordedSelf = some (.receiver a.line className)
  plain : a.init = none → a.recordedSelf = before.recordedSelf

/-- The annotations of a feature agree with the definition that its class has of it. -/
inductive Feature.Agrees : Feature → Feature → Prop where
  | ofMethod {before m : Method} {d : MethodDef} (hown : registry.ownMethod? id m.name = some d)
      (h : Method.Agrees registry className before m d) : Agrees (.method before) (.method m)
  | ofAttribute {before a : Attribute} {d : AttributeDef}
      (hown : registry.ownAttribute? id a.name = some d)
      (h : Attribute.Agrees registry className before a d) :
      Agrees (.attribute before) (.attribute a)

/-- The annotations of a class and of its features agree with the registry. -/
structure Class.Agrees (before c : Class) : Prop where
  registered : registry.find? c.name = some id
  parent : ∃ parent name, registry.ParentOf id parent ∧ registry.name? parent = some name ∧
    c.recordedParent = some name
  features : List.Forall₂ (Feature.Agrees registry id c.name) before.features c.features

/-- The annotations of all classes agree with the registry, where `before` are the classes as they
were before the analysis. -/
def Registry.Describes (before classes : List Class) : Prop :=
  List.Forall₂ (fun before c => ∃ id, Class.Agrees registry id before c) before classes

/-- The feature has an annotation that an analysis neither writes nor removes. -/
def Feature.Leftover : Feature → Prop
  | .method m => registry.resolveReturn? m.returnType = none ∧ m.recordedReturn ≠ none
  | .attribute a => a.init = none ∧ a.recordedSelf ≠ none

end

/-! ### Annotations that are left over -/

/-- Related lists stay related when the elements of the first are changed, if and only if each
element stays related, for which there is a condition on the element alone. -/
theorem forall₂_map_iff_forall {α β : Type} {R : α → β → Prop} {f : α → α} {P : α → Prop}
    {xs : List α} {ys : List β} (h : List.Forall₂ R xs ys)
    (hf : ∀ x y, R x y → (R (f x) y ↔ P x)) : List.Forall₂ R (xs.map f) ys ↔ ∀ x ∈ xs, P x := by
  induction h with
  | nil => simp
  | cons hxy _ ih => rw [List.map_cons, List.forall₂_cons, List.forall_mem_cons, ih, hf _ _ hxy]

section

variable {registry : Registry} {id : ClassId} {className : String}

theorem Attribute.Agrees.init_eq_none_iff {before a : Attribute} {d : AttributeDef}
    (h : Attribute.Agrees registry className before a d) : a.init = none ↔ before.init = none := by
  rw [← Option.not_isSome_iff_eq_none, h.init, Option.not_isSome_iff_eq_none]

theorem Feature.agrees_bare_iff {before f : Feature}
    (h : Feature.Agrees registry id className before f) :
    Feature.Agrees registry id className before.bare f ↔ ¬ before.Leftover registry := by
  cases h with
  | @ofMethod before m d hown h =>
    -- of a method only the return type depends on what was recorded before
    constructor
    · rintro ⟨hown', h'⟩ ⟨hnone, hleft⟩
      obtain rfl := Option.some_inj.mp (hown.symm.trans hown')
      rw [← h.returnTy] at hnone
      exact hleft ((h.unresolved hnone).symm.trans (h'.unresolved hnone))
    · intro hnot
      refine .ofMethod hown { h with unresolved := fun hnone => ?_ }
      rw [h.unresolved hnone]
      by_contra hleft
      exact hnot ⟨h.returnTy.symm.trans hnone, hleft⟩
  | @ofAttribute before a d hown h =>
    -- of an attribute it is the receiver
    constructor
    · rintro (_ | ⟨hown', h'⟩) ⟨hnone, hleft⟩
      have hinit : a.init = none := h.init_eq_none_iff.mpr hnone
      exact hleft ((h.plain hinit).symm.trans (h'.plain hinit))
    · intro hnot
      refine .ofAttribute hown { h with plain := fun hinit => ?_ }
      rw [h.plain hinit]
      by_contra hleft
      exact hnot ⟨h.init_eq_none_iff.mp hinit, hleft⟩

theorem Class.agrees_bare_iff {before c : Class} (h : Class.Agrees registry id before c) :
    Class.Agrees registry id before.bare c ↔ ∀ f ∈ before.features, ¬ f.Leftover registry := by
  rw [← forall₂_map_iff_forall h.features fun _ _ => Feature.agrees_bare_iff]
  exact ⟨fun h' => h'.features, fun hfeatures => { h with features := hfeatures }⟩

/-- The annotations are those of a program without annotations, if and only if none was left
over. -/
theorem Registry.describes_bare_iff {before classes : List Class}
    (h : registry.Describes before classes) :
    registry.Describes (before.map Class.bare) classes ↔
      ∀ c ∈ before, ∀ f ∈ c.features, ¬ f.Leftover registry := by
  refine forall₂_map_iff_forall h fun before c => ?_
  rintro ⟨id, hid⟩
  rw [← Class.agrees_bare_iff hid]
  constructor
  · rintro ⟨id', hid'⟩
    obtain rfl := Option.some_inj.mp (hid.registered.symm.trans hid'.registered)
    exact hid'
  · exact fun hbare => ⟨id, hbare⟩

end

/-! ### What the check of the bodies changes -/

/-- The second feature is the first one after the check of its root: a method may have another root,
and so may an attribute that has one, for which the receiver is recorded. -/
inductive Feature.Completes (className : String) : Feature → Feature → Prop where
  | ofMethod (m : Method) (body : Option ExprId) :
      Completes className (.method m) (.method { m with body })
  | plain (a : Attribute) (h : a.init = none) : Completes className (.attribute a) (.attribute a)
  | initial (a : Attribute) (h : a.init.isSome) (root : ExprId) :
      Completes className (.attribute a) (.attribute
        { a with init := some root, recordedSelf := some (.receiver a.line className) })

theorem Feature.Completes.trans {className : String} {f g f' : Feature}
    (h : Completes className f g) (h' : Completes className g f') : Completes className f f' := by
  cases h with
  | ofMethod m body =>
    cases h' with
    | ofMethod _ body' => exact .ofMethod m body'
  | plain a hinit => exact h'
  | initial a hinit root =>
    cases h' with
    | plain _ hnone => cases hnone
    | initial _ _ root' => exact .initial a hinit root'

/-- Where every step that ends well relates what its element was made of to what it leaves, so does
the run. -/
theorem Step.forall₂_of_eachFrom_ok {σ α β : Type} {step : Nat → Step (σ × α) Unit} {f : β → α}
    {R : β → α → Prop} {k : Nat} {s s' : σ} {xs : List β} {ys : List α}
    (hstep : ∀ i x s s' y, xs[i]? = some x →
      (step (k + i)).runFrom (s, f x) = (.ok (), s', y) → R x y)
    (hrun : eachFrom step k (xs.map f) s = (.ok (), s', ys)) : List.Forall₂ R xs ys := by
  induction xs generalizing k s ys with
  | nil =>
    obtain ⟨rfl, rfl⟩ := by simpa [eachFrom] using hrun
    exact .nil
  | cons x xs ih =>
    rw [List.map_cons] at hrun
    obtain ⟨t, y, zs, hx, hrest, rfl⟩ := exists_of_eachFrom_cons_ok hrun
    refine .cons (hstep 0 x s t y rfl hx) (ih (fun i x s s' y hx => ?_) hrest)
    rw [show k + 1 + i = k + (i + 1) by omega]
    exact hstep (i + 1) x s s' y hx

theorem Class.forall₂_of_eachFeature_ok {σ : Type} {step : Step (σ × Feature) Unit}
    {R : Feature → Feature → Prop} {s s' : σ} {c c' : Class}
    (hstep : ∀ f s s' f', step.runFrom (s, f) = (.ok (), s', f') → R f f')
    (h : (eachFeature step).runFrom (s, c) = (.ok (), s', c')) :
    ∃ features, c' = { c with features } ∧ List.Forall₂ R c.features features := by
  rw [runFrom_eachFeature] at h
  rcases hrun : Step.eachFrom (fun _ => step) 0 c.features s with ⟨result, t, features⟩
  rw [hrun] at h
  obtain ⟨rfl, rfl, rfl⟩ := by simpa using h
  rw [← List.map_id c.features] at hrun
  exact ⟨features, rfl, Step.forall₂_of_eachFrom_ok (fun _ f s s' f' _ => hstep f s s' f') hrun⟩

/-- Two passes over a list, one after the other. -/
theorem forall₂_of_forall₂_of_forall₂ {α β γ : Type} {R : α → β → Prop} {S : β → γ → Prop}
    {T : α → γ → Prop} {xs : List α} {ys : List β} {zs : List γ} (h : List.Forall₂ R xs ys)
    (h' : List.Forall₂ S ys zs) (hcomp : ∀ x y z, R x y → S y z → T x z) :
    List.Forall₂ T xs zs := by
  induction h generalizing zs with
  | nil =>
    cases h'
    exact .nil
  | cons hxy _ ih =>
    cases h' with
    | cons hyz h' => exact .cons (hcomp _ _ _ hxy hyz) (ih h')

namespace Analysis

variable {registry : Registry} {id : ClassId} {className : String} {s s' : Checking}

theorem completes_checkAttribute (hname : registry.name? id = some className) {a a' : Attribute}
    (h : (checkAttribute registry id).runFrom (s, a) = (.ok (), s', a')) :
    Feature.Completes className (.attribute a) (.attribute a') := by
  rw [checkAttribute, attributeBy, Step.runFrom_bind_of_ok (Step.runFrom_get _)] at h
  obtain ⟨⟨⟩, t, hredefinition, h⟩ := Step.runFrom_bind_eq_ok.mp h
  rw [Step.runFrom_ofExcept] at hredefinition
  obtain ⟨-, rfl⟩ := Prod.mk.inj hredefinition
  cases hinit : a.init with
  | none =>
    obtain ⟨rfl, rfl⟩ := by simpa [hinit] using h
    exact .plain a hinit
  | some init =>
    simp only [hinit] at h
    cases hown : registry.ownAttribute? id a.name with
    | none =>
      rw [hown, Step.runFrom_bind_of_error (Step.runFrom_demand_none ..)] at h
      cases h
    | some attr =>
      rw [hown, Step.runFrom_bind_of_ok (Step.runFrom_demand_some ..), hname,
        Step.runFrom_bind_of_ok (Step.runFrom_demand_some ..),
        Step.runFrom_bind_of_ok (Step.runFrom_modify ..)] at h
      -- whatever root the check returns, nothing else is recorded
      obtain ⟨root, t, -, h⟩ := Step.runFrom_bind_eq_ok.mp h
      obtain ⟨-, rfl⟩ := by simpa using h
      exact .initial a (by rw [hinit]; rfl) root

theorem completes_checkMethod {m m' : Method}
    (h : (checkMethod registry id).runFrom (s, m) = (.ok (), s', m')) :
    Feature.Completes className (.method m) (.method m') := by
  have hsigned := signed_checkMethod registry id s m
  rw [h] at hsigned
  -- nothing but the body has changed
  have hm' : m' = { m with body := m'.body } := by
    simp only [Method.signed, Method.mk.injEq] at hsigned
    obtain ⟨⟩ := m
    obtain ⟨⟩ := m'
    simpa using hsigned
  rw [hm']
  exact .ofMethod m m'.body

theorem completes_onAttribute (hname : registry.name? id = some className) {f f' : Feature}
    (h : (Feature.onAttribute (checkAttribute registry id)).runFrom (s, f) = (.ok (), s', f')) :
    Feature.Completes className f f' := by
  rcases f with m | a
  · obtain ⟨rfl, rfl⟩ := by simpa using h
    exact .ofMethod m m.body
  · rw [Feature.runFrom_onAttribute] at h
    rcases ha : (checkAttribute registry id).runFrom (s, a) with ⟨result, t, a'⟩
    obtain ⟨rfl, rfl, rfl⟩ := by simpa [ha] using h
    exact completes_checkAttribute hname ha

theorem completes_onMethod {f f' : Feature}
    (h : (Feature.onMethod (checkMethod registry id)).runFrom (s, f) = (.ok (), s', f')) :
    f = f' ∨ Feature.Completes className f f' := by
  rcases f with m | a
  · rw [Feature.runFrom_onMethod] at h
    rcases hm : (checkMethod registry id).runFrom (s, m) with ⟨result, t, m'⟩
    obtain ⟨rfl, rfl, rfl⟩ := by simpa [hm] using h
    exact .inr (completes_checkMethod hm)
  · obtain ⟨rfl, rfl⟩ := by simpa using h
    exact .inl rfl

/-- The check of a class completes its features. -/
theorem completes_checkClass (hname : registry.name? id = some className) {c c' : Class}
    (h : (checkClass registry id).runFrom (s, c) = (.ok (), s', c')) :
    ∃ features, c' = { c with features } ∧
      List.Forall₂ (Feature.Completes className) c.features features := by
  rw [checkClass, classBy, Step.runFrom_bind_of_ok (Step.runFrom_modify ..)] at h
  obtain ⟨⟨⟩, ⟨t, d⟩, hattributes, hmethods⟩ := Step.runFrom_bind_eq_ok.mp h
  -- the attributes are completed in the first pass, and the methods in the second
  obtain ⟨between, rfl, hfirst⟩ :=
    Class.forall₂_of_eachFeature_ok (fun _ _ _ _ => completes_onAttribute hname) hattributes
  obtain ⟨features, rfl, hsecond⟩ :=
    Class.forall₂_of_eachFeature_ok (fun _ _ _ _ => completes_onMethod) hmethods
  refine ⟨features, rfl, forall₂_of_forall₂_of_forall₂ hfirst hsecond ?_⟩
  rintro f g f' hfg (rfl | hgf)
  · exact hfg
  · exact hfg.trans hgf

end Analysis

/-! ### Accepted programs -/

namespace Registry

variable {registry : Registry} {name : String} {ty : Ty}

theorem Indexed.labels_of_resolve? (hindexed : registry.Indexed)
    (h : registry.resolve? name = some ty) : registry.Labels ty (registry.recorded? name) := by
  obtain ⟨type, htype, -⟩ := hindexed.exists_label ⟨name, h⟩
  exact ⟨type, htype, by rw [recorded?, h, Option.bind_some, htype]⟩

theorem Indexed.labels_of_resolveReturn? (hindexed : registry.Indexed)
    (h : registry.resolveReturn? name = some ty) : registry.Labels ty (registry.label? ty) := by
  rcases declarable_of_resolveReturn? h with rfl | hdeclarable
  · exact ⟨.noValue, rfl, rfl⟩
  · obtain ⟨type, htype, -⟩ := hindexed.exists_label hdeclarable
    exact ⟨type, htype, htype⟩

end Registry

namespace Program

variable {p : Program} {registry : Registry} {i : Nat} {c : Class}

theorem resolveReturn?_table (p : Program) (name : String) :
    p.table.resolveReturn? name = p.names.resolveReturn? name := by
  rw [Registry.resolveReturn?, Registry.resolveReturn?, resolve?_table]

/-- Parameters whose types resolve are annotated as they are registered, one by one. -/
theorem forall₂_agrees_params {params : List Param}
    (h : ∀ param ∈ params, (p.names.resolve? param.typeName).isSome) :
    List.Forall₂ (Param.Agrees p.table) (params.map (Param.annotated p.table))
      (params.filterMap (Param.known? p.names)) := by
  induction params with
  | nil => exact .nil
  | cons param params ih =>
    obtain ⟨hparam, hparams⟩ := List.forall_mem_cons.mp h
    obtain ⟨ty, hty⟩ := Option.isSome_iff_exists.mp hparam
    have hknown : param.known? p.names = some ⟨param.name, param.typeName, ty⟩ := by
      rw [Param.known?, hty, Option.map_some]
    rw [List.map_cons, List.filterMap_cons_some hknown]
    rw [← resolve?_table] at hty
    exact .cons ⟨rfl, rfl, p.indexed_table.labels_of_resolve? hty⟩ (ih hparams)

namespace WellDeclared

variable (h : p.WellDeclared) (hc : p.classes[i]? = some c)
include h hc

/-- A method is annotated as it is registered, whatever becomes of its body. -/
theorem agrees_method {m : Method} (hm : .method m ∈ c.features) (body : Option ExprId) :
    Feature.Agrees p.table (Analysis.classId i) c.name (.method m)
      (.method { m.annotated p.table c.name with body }) := by
  have hmem : m ∈ c.methods := Class.mem_methods_iff.mpr hm
  have hown : p.table.ownMethod? (Analysis.classId i) m.name =
      some (m.known p.names (Analysis.classId i)) :=
    (h.ownMethod?_eq_some_iff (class?_table hc)).mpr ⟨List.mem_map_of_mem hmem, rfl⟩
  have hreturn : (m.known p.names (Analysis.classId i)).returnTy =
      p.table.resolveReturn? m.returnType := (p.resolveReturn?_table m.returnType).symm
  have hsigned := h.signed c (List.mem_of_getElem? hc)
  refine .ofMethod hown ⟨rfl, rfl, forall₂_agrees_params (hsigned.params m hmem), hreturn, ?_, ?_⟩
  · intro ty hty
    rw [hreturn] at hty
    simp only [Method.annotated, Method.returning, Method.owned, hty]
    exact p.indexed_table.labels_of_resolveReturn? hty
  · intro hnone
    rw [hreturn] at hnone
    simp only [Method.annotated, Method.returning, Method.owned, hnone]

/-- The type of an attribute is annotated as it is registered. -/
theorem exists_ownAttribute? {a : Attribute} (ha : .attribute a ∈ c.features) :
    ∃ d, p.table.ownAttribute? (Analysis.classId i) a.name = some d ∧
      p.table.Labels d.ty (a.annotated p.table).recordedType := by
  have hmem : a ∈ c.attributes := Class.mem_attributes_iff.mpr ha
  have hsigned := h.signed c (List.mem_of_getElem? hc)
  obtain ⟨ty, hty⟩ := Option.isSome_iff_exists.mp (hsigned.types a hmem)
  have hknown : a.known? p.names (Analysis.classId i) =
      some ⟨a.name, Analysis.classId i, a.typeName, ty⟩ := by
    rw [Attribute.known?, hty, Option.map_some]
  refine ⟨_, (h.ownAttribute?_eq_some_iff (class?_table hc)).mpr
    ⟨List.mem_filterMap.mpr ⟨a, hmem, hknown⟩, rfl⟩, ?_⟩
  rw [← resolve?_table] at hty
  exact p.indexed_table.labels_of_resolve? hty

/-- A feature that has been annotated and completed agrees with its definition. -/
theorem agrees_of_completes {f f' : Feature} (hf : f ∈ c.features)
    (hcompletes : Feature.Completes c.name (f.annotated p.table c.name) f') :
    Feature.Agrees p.table (Analysis.classId i) c.name f f' := by
  rcases f with m | a
  · cases hcompletes with
    | ofMethod _ body => exact h.agrees_method hc hf body
  · obtain ⟨d, hown, htype⟩ := h.exists_ownAttribute? hc hf
    cases hcompletes with
    | plain _ hnone =>
      refine .ofAttribute hown ⟨htype, rfl, fun hsome => ?_, fun _ => rfl⟩
      rw [hnone] at hsome
      cases hsome
    | initial _ hsome root => exact .ofAttribute hown ⟨htype, hsome.symm, fun _ => rfl, nofun⟩

/-- The parent that is recorded for a class is the one in the table. -/
theorem exists_recordedParent : ∃ parent name, p.table.ParentOf (Analysis.classId i) parent ∧
    p.table.name? parent = some name ∧ (c.annotated p.table).recordedParent = some name := by
  obtain ⟨parent, hparent, -⟩ := h.linked c (List.mem_of_getElem? hc)
  have hparentOf : p.table.ParentOf (Analysis.classId i) parent :=
    (parentOf_table_iff hc).mpr hparent
  obtain ⟨d, hd⟩ := Registry.exists_class?_of_lt (Registry.lt_size_listing_of_parentId? hparent)
  have hname : p.table.name? parent = some d.name := by
    rw [Registry.name?]
    exact Option.map_eq_some_iff.mpr ⟨d, hd, rfl⟩
  refine ⟨parent, d.name, hparentOf, hname, ?_⟩
  rw [Class.annotated, show p.table.find? c.name = some (Analysis.classId i) from
    h.coherent.find?_name (class?_table hc), Option.bind_some]
  dsimp only
  rw [hparentOf, Option.bind_some, hname]

/-- A class that has been annotated and checked agrees with the table. -/
theorem agrees_checkClass {s s' : Checking} {c' : Class}
    (hrun : (Analysis.checkClass p.table (Analysis.classId i)).runFrom (s, c.annotated p.table) =
      (.ok (), s', c')) : Class.Agrees p.table (Analysis.classId i) c c' := by
  have hname : p.table.name? (Analysis.classId i) = some c.name := by
    rw [Registry.name?, class?_table hc]
    rfl
  obtain ⟨features, rfl, hcompletes⟩ := Analysis.completes_checkClass hname hrun
  refine ⟨h.coherent.find?_name (class?_table hc), h.exists_recordedParent hc, ?_⟩
  have hfeatures : List.Forall₂ (Feature.Completes c.name)
      (c.features.map (Feature.annotated p.table c.name)) features := hcompletes
  rw [List.forall₂_map_left_iff] at hfeatures
  have hmembers := (List.forall₂_and_left c.features features).mpr ⟨fun _ hf => hf, hfeatures⟩
  exact hmembers.imp fun f f' hboth => h.agrees_of_completes hc hboth.1 hboth.2

end WellDeclared

/-- After an analysis that succeeds, the annotations agree with the registry beside those that the
program had before. -/
theorem describes_classes (h : p.analyse.result = .ok registry) :
    registry.Describes p.classes p.analyse.program.classes := by
  obtain ⟨r, s, classes, hdeclare, rfl, hbodies, hprogram⟩ := exists_of_analyse_ok h
  obtain ⟨hdeclared, htable⟩ := declarations_eq_ok_iff.mp (declarations_of_declare hdeclare)
  -- the bodies are checked in classes that have been annotated by then
  rw [Analysis.classes_of_declare hdeclare, htable] at hbodies
  rw [hprogram, htable, Registry.Describes]
  refine Step.forall₂_of_eachFrom_ok (fun i c s s' c' hc hrun => ?_) hbodies
  rw [Nat.zero_add] at hrun
  exact ⟨Analysis.classId i, hdeclared.agrees_checkClass hc hrun⟩

/-- After an analysis that succeeds, the annotations of every class and of every feature agree with
the registry. Where the analysis has nothing to write, an annotation stays as it was: the return
type of a method that does not resolve, and the receiver of an attribute without an initial value.
So the annotations are those of the program without annotations, if and only if none of these was
there. -/
theorem describes_of_analyse (h : p.analyse.result = .ok registry) :
    registry.Describes p.classes p.analyse.program.classes ∧
    (registry.Describes (p.classes.map Class.bare) p.analyse.program.classes ↔
      ∀ c ∈ p.classes, ∀ f ∈ c.features, ¬ f.Leftover registry) :=
  ⟨describes_classes h, Registry.describes_bare_iff (describes_classes h)⟩

/-- A program that was analysed before its attribute lost the initial value, and before the class
that its method returns was removed. -/
def edited : Program where
  line := 1
  classes := [
    { line := 1, name := "Main", parent := none, recordedParent := none
      features := [
        .attribute { Attribute.declared 2 "count" "Int" none with
          recordedSelf := some (.receiver 2 "Main") },
        .method { Method.declared 3 "haunt" [] "Ghost" none with recordedReturn := some .int },
        .method (.declared 4 "main" [] "void" none)] }]
  exprs := ⟨#[]⟩
  builtins := []

/-- The edited program is accepted, and its annotations agree with the registry beside what was left
over. -/
theorem describes_of_analyse_edited :
    ∃ registry, edited.analyse.result = .ok registry ∧
      registry.Describes edited.classes edited.analyse.program.classes ∧
      ¬ ∀ c ∈ edited.classes, ∀ f ∈ c.features, ¬ f.Leftover registry := by
  obtain ⟨registry, hok⟩ : ∃ registry, edited.analyse.result = .ok registry :=
    exists_of_toBool (by decide +kernel)
  refine ⟨registry, hok, (describes_of_analyse hok).1, fun hnone => ?_⟩
  exact hnone _ List.mem_cons_self _ List.mem_cons_self ⟨rfl, nofun⟩

/-- After the analysis of the edited program a return type is recorded for a name that does not
resolve, and a receiver for an initial value that is not there. -/
theorem not_describes_bare_edited :
    ∃ registry a m, edited.analyse.result = .ok registry ∧
      (featureAt? edited.analyse.program.classes 0 0 = some (.attribute a) ∧ a.init = none ∧
        a.recordedSelf = some (.receiver 2 "Main")) ∧
      (featureAt? edited.analyse.program.classes 0 1 = some (.method m) ∧
        registry.resolveReturn? m.returnType = none ∧ m.recordedReturn = some .int) ∧
      ¬ registry.Describes (edited.classes.map Class.bare) edited.analyse.program.classes := by
  obtain ⟨registry, hok⟩ : ∃ registry, edited.analyse.result = .ok registry :=
    exists_of_toBool (by decide +kernel)
  have hghost : registry.resolveReturn? "Ghost" = none := by
    rw [eq_table_of_analyse hok]
    decide +kernel
  refine ⟨registry,
    { Attribute.declared 2 "count" "Int" none with
      recordedType := some .int, recordedSelf := some (.receiver 2 "Main") },
    { Method.declared 3 "haunt" [] "Ghost" none with
      recordedReturn := some .int, recordedSelf := some (.receiver 3 "Main")
      recordedOwner := some "Main" },
    hok, ⟨by decide +kernel, rfl, rfl⟩, ⟨by decide +kernel, hghost, rfl⟩, ?_⟩
  rw [Registry.describes_bare_iff (describes_classes hok)]
  intro hnone
  exact hnone _ List.mem_cons_self _ List.mem_cons_self ⟨rfl, nofun⟩

end Program

end Lcpl
