import Lcpl.Proofs.Analysis.Course

/-!
# Declaring a program twice

The phases in front of the bodies write annotations, and read none. So they end in the same way when
they are run again on what they have left, and the annotations that they write are there already.
This holds also after the bodies have been checked, since the check of a body touches no signature.

## Main definitions

* `Step.Settles` — a step that changes nothing where it has been before

## Main results

* `Step.Settles.eachFrom` — a list of items
* `Signature.settles_declareClass` — the features of a class
* `Analysis.exists_declare_again` — the phases in front of the bodies
-/

namespace Lcpl

variable {σ α β : Type}

/-! ### Steps on an item -/

namespace Step

/-- From every item that looks like what the step has left, the step ends as before and leaves the
item as it is. -/
def Settles (view : α → β) (step : Step (σ × α) Unit) : Prop :=
  ∀ s x y, view y = view (step.runFrom (s, x)).2.2 →
    step.runFrom (s, y) = ((step.runFrom (s, x)).1, (step.runFrom (s, x)).2.1, y)

theorem Settles.eachFrom {view : α → β} {step : Nat → Step (σ × α) Unit}
    (hstep : ∀ k, Settles view (step k)) (k : Nat) (s : σ) (xs ys : List α)
    (h : ys.map view = (Step.eachFrom step k xs s).2.2.map view) :
    Step.eachFrom step k ys s =
      ((Step.eachFrom step k xs s).1, (Step.eachFrom step k xs s).2.1, ys) := by
  induction xs generalizing k s ys with
  | nil =>
    obtain rfl := List.map_eq_nil_iff.mp h
    rfl
  | cons x xs ih =>
    have hx := hstep k s x
    rcases hrun : (step k).runFrom (s, x) with ⟨failure | ⟨⟩, s', x'⟩
    · rw [eachFrom_cons_of_error hrun] at h ⊢
      obtain ⟨y, ys, rfl, hy, -⟩ := List.map_eq_cons_iff.mp h
      rw [hrun] at hx
      rw [eachFrom_cons_of_error (hx y hy)]
    · rw [eachFrom_cons_of_ok hrun] at h ⊢
      obtain ⟨y, ys, rfl, hy, hys⟩ := List.map_eq_cons_iff.mp h
      rw [hrun] at hx
      rw [eachFrom_cons_of_ok (hx y hy), ih (k + 1) s' ys hys]

end Step

namespace Feature

theorem settles_onMethod {view : Method → β} {step : Step (σ × Method) Unit}
    (h : Step.Settles view step) :
    Step.Settles (fun f : Feature => f.method?.map view) (onMethod step) := by
  intro s f g hview
  rcases f with m | a
  · obtain ⟨m', hm', hsame⟩ := Option.map_eq_some_iff.mp hview
    rcases g with m' | a
    · obtain rfl := Option.some_inj.mp hm'
      rw [runFrom_onMethod, runFrom_onMethod, h s m _ hsame]
    · cases hm'
  · rcases g with m | a'
    · cases hview
    · rfl

theorem settles_onAttribute {view : Attribute → β} {step : Step (σ × Attribute) Unit}
    (h : Step.Settles view step) :
    Step.Settles (fun f : Feature => f.attribute?.map view) (onAttribute step) := by
  intro s f g hview
  rcases f with m | a
  · rcases g with m' | a
    · rfl
    · cases hview
  · obtain ⟨a', ha', hsame⟩ := Option.map_eq_some_iff.mp hview
    rcases g with m | a'
    · cases ha'
    · obtain rfl := Option.some_inj.mp ha'
      rw [runFrom_onAttribute, runFrom_onAttribute, h s a _ hsame]

end Feature

/-! ### Signatures -/

theorem Method.exists_of_signed {m m' : Method} (h : m'.signed = m.signed) :
    ∃ body, m' = { m with body } := by
  refine ⟨m'.body, ?_⟩
  obtain ⟨⟩ := m
  obtain ⟨⟩ := m'
  simpa [signed] using h

theorem Attribute.exists_of_signed {a a' : Attribute} (h : a'.signed = a.signed) :
    ∃ init recordedSelf, a' = { a with init, recordedSelf } := by
  refine ⟨a'.init, a'.recordedSelf, ?_⟩
  obtain ⟨⟩ := a
  obtain ⟨⟩ := a'
  simpa [signed] using h

/-- Annotated parameters are resolved like the parameters that they were. -/
theorem Registry.resolveParams_again (registry : Registry) (params : List Param) :
    registry.resolveParams (registry.resolveParams params).2 = registry.resolveParams params := by
  induction params with
  | nil => rfl
  | cons param params ih =>
    cases htype : registry.resolveDeclared param.typeName param.line with
    | error failure => simp [resolveParams, htype]
    | ok ty => simp [resolveParams, htype, ih]

namespace Signature

variable (id : ClassId)

theorem settles_declareMethod : Step.Settles Method.signed (declareMethod id) := by
  rintro ⟨registry, log⟩ m m' hsigned
  obtain ⟨body, rfl⟩ := Method.exists_of_signed hsigned
  -- annotated parameters take the same way through each branch
  have hagain := registry.resolveParams_again m.params
  unfold declareMethod
  simp only [Step.runFrom_bind, Step.runFrom_get]
  cases hc : registry.class? id with
  | none => rfl
  | some c =>
    by_cases htaken : (c.method? m.name).isSome
    · simp [htaken, Step.runFrom_bind]
    · have hnew : c.method? m.name = none := Option.not_isSome_iff_eq_none.mp htaken
      rcases hparams : registry.resolveParams m.params with ⟨failure | defs, params⟩
      · rw [hparams] at hagain
        simp [htaken, Step.runFrom_bind, annotate, hagain]
      · rw [hparams] at hagain
        cases hreturn : registry.resolveReturn? m.returnType with
        | some ty =>
          simp [hnew, Step.runFrom_bind, annotate, emit, runFrom_onClass, hc,
            ClassDef.run_addMethod_of_none, hreturn, hagain]
        | none =>
          simp [hnew, Step.runFrom_bind, annotate, emit, runFrom_onClass, hc,
            ClassDef.run_addMethod_of_none, hreturn, hagain]

theorem settles_declareAttribute : Step.Settles Attribute.signed (declareAttribute id) := by
  rintro ⟨registry, log⟩ a a' hsigned
  rw [runFrom_declareAttribute] at hsigned
  rw [runFrom_declareAttribute, runFrom_declareAttribute]
  cases hty : registry.resolve? a.typeName with
  | none =>
    rw [hty] at hsigned
    obtain ⟨init, recordedSelf, rfl⟩ := Attribute.exists_of_signed hsigned
    simp [hty]
  | some ty =>
    rw [hty] at hsigned
    cases hc : registry.class? id with
    | none =>
      rw [hc] at hsigned
      obtain ⟨init, recordedSelf, rfl⟩ := Attribute.exists_of_signed hsigned
      simp [hty]
    | some c =>
      rw [hc] at hsigned
      by_cases htaken : (c.attribute? a.name).isSome
      · simp only [htaken, if_true] at hsigned
        obtain ⟨init, recordedSelf, rfl⟩ := Attribute.exists_of_signed hsigned
        simp [hty, htaken]
      · simp only [htaken] at hsigned
        obtain ⟨init, recordedSelf, rfl⟩ := Attribute.exists_of_signed hsigned
        simp [hty, htaken]

/-- The features of a class, in both passes. The second pass leaves the methods as the first one has
annotated them. -/
theorem settles_declareClass :
    Step.Settles (fun c : Class => c.features.map Feature.signed) (declareClass id) := by
  have hmethods := Step.Settles.eachFrom
    (fun _ : Nat => Feature.settles_onMethod (settles_declareMethod id)) 0
  have hattributes := Step.Settles.eachFrom
    (fun _ : Nat => Feature.settles_onAttribute (settles_declareAttribute id)) 0
  -- each pass looks at the signatures of the features of one kind
  have hmethodView (fs : List Feature) : fs.map (fun f => f.method?.map Method.signed) =
      (fs.map Feature.signed).map Feature.method? := by
    rw [List.map_map]
    exact List.map_congr_left fun f _ => by rcases f with m | a <;> rfl
  have hattributeView (fs : List Feature) : fs.map (fun f => f.attribute?.map Attribute.signed) =
      (fs.map Feature.signed).map Feature.attribute? := by
    rw [List.map_map]
    exact List.map_congr_left fun f _ => by rcases f with m | a <;> rfl
  have hkept (fs : List Feature) (s : Resolving) := congrArg (List.map (Option.map Method.signed))
    (Feature.map_method?_onAttribute (declareAttribute id) 0 fs s)
  simp only [List.map_map, Function.comp_def] at hkept
  intro s c d h
  rw [declareClass] at h ⊢
  rcases hfirst : Step.eachFrom (fun _ => Feature.onMethod (declareMethod id)) 0 c.features s with
    ⟨failure | ⟨⟩, s', features⟩
  · have hc : (Class.eachFeature (Feature.onMethod (declareMethod id))).runFrom (s, c) =
        (.error failure, s', { c with features }) := by
      rw [Class.runFrom_eachFeature, hfirst]
    rw [Step.runFrom_bind_of_error hc] at h ⊢
    have hd := hmethods s c.features d.features (by
      rw [hfirst, hmethodView, hmethodView]
      exact congrArg _ h)
    rw [hfirst] at hd
    refine Step.runFrom_bind_of_error ?_
    rw [Class.runFrom_eachFeature, hd]
  · have hc : (Class.eachFeature (Feature.onMethod (declareMethod id))).runFrom (s, c) =
        (.ok (), s', { c with features }) := by
      rw [Class.runFrom_eachFeature, hfirst]
    rw [Step.runFrom_bind_of_ok hc, Class.runFrom_eachFeature] at h ⊢
    dsimp only at h ⊢
    have hd := hmethods s c.features d.features (by
      rw [hfirst, ← hkept features s', hmethodView, hmethodView]
      exact congrArg _ h)
    have hd' := hattributes s' features d.features (by
      rw [hattributeView, hattributeView]
      exact congrArg _ h)
    rw [hfirst] at hd
    have hrun : (Class.eachFeature (Feature.onMethod (declareMethod id))).runFrom (s, d) =
        (.ok (), s', d) := by
      rw [Class.runFrom_eachFeature, hd]
    rw [Step.runFrom_bind_of_ok hrun, Class.runFrom_eachFeature, hd']

end Signature

/-! ### The phases in front of the bodies -/

/-- Registration reads the name, the line and the parent of a class. -/
theorem Hierarchy.registerFrom_congr {classes classes' : List Class} {k : Nat}
    (h : classes'.map Class.core = classes.map Class.core) :
    registerFrom k classes' = registerFrom k classes := by
  induction classes generalizing k classes' with
  | nil =>
    obtain rfl := List.map_eq_nil_iff.mp h
    rfl
  | cons c classes ih =>
    obtain ⟨c', classes', rfl, hc, hclasses⟩ := List.map_eq_cons_iff.mp h
    obtain ⟨hline, hname, hparent, -⟩ := by simpa [Class.core] using hc
    rw [registerFrom, registerFrom, hname, hline, hparent]
    simp only [ih hclasses]

theorem Hierarchy.build_congr {classes classes' : List Class}
    (h : classes'.map Class.core = classes.map Class.core) : build classes' = build classes := by
  have hlength : classes'.length = classes.length := by simpa using congrArg List.length h
  rw [build, build, register, register, registerFrom_congr h, hlength]

namespace Analysis

theorem recordedParent_declareClass (id : ClassId) (s : Resolving) (c : Class) :
    ((Signature.declareClass id).runFrom (s, c)).2.2.recordedParent = c.recordedParent := by
  rw [Signature.declareClass, Step.runFrom_bind]
  split
  · next hrun =>
    rw [Class.runFrom_eachFeature] at hrun ⊢
    obtain ⟨-, -, rfl⟩ := by simpa using hrun
    rfl
  · next hrun =>
    rw [Class.runFrom_eachFeature] at hrun
    obtain ⟨-, -, rfl⟩ := by simpa using hrun
    rfl

/-- Parents that are recorded already are recorded again. -/
theorem withParents_eq_self {registry : Registry} {classes classes' : List Class}
    (h : classes'.map Class.recordedParent =
      (withParents registry classes).map Class.recordedParent) :
    withParents registry classes' = classes' := by
  refine List.ext_getElem? fun i => ?_
  have hi := congrArg (·[i]?) h
  simp only [withParents, List.getElem?_map, List.getElem?_mapIdx, Option.map_map] at hi ⊢
  cases hc' : classes'[i]? with
  | none => rfl
  | some c' =>
    rw [hc'] at hi
    obtain ⟨c, -, hparent⟩ := Option.map_eq_some_iff.mp hi.symm
    rw [Option.map_some, Option.some_inj]
    exact congrArg (fun parent => { c' with recordedParent := parent }) hparent

/-- The phases in front of the bodies end in the same way on what they have left, also if roots have
been checked since, and they change nothing. -/
theorem exists_declare_again {p q : Program} {result : Except Failure Unit} {r : Run}
    (h : declare.runFrom (start p) = (result, r))
    (hq : q.classes.map Class.signed = r.program.classes.map Class.signed) :
    ∃ log, declare.runFrom (start q) = (result, ⟨(start q).program, r.registry, log⟩) := by
  have hr := (redeclares_declare p).classes
  have hdeclaring := declaring p
  rw [h] at hr hdeclaring
  have hbuilds : Hierarchy.build q.classes = Hierarchy.build p.classes :=
    Hierarchy.build_congr ((Class.map_core_of_signed hq).trans (Class.map_core_of_bare hr))
  cases hdeclaring with
  | @unbuilt failure s hbuild =>
    rw [← hbuilds] at hbuild
    exact ⟨s.log, runFrom_declare_of_error hbuild⟩
  | @signed s _ t classes hbuild hsignatures log =>
    dsimp only at hq
    have hfeatures : q.classes.map (fun c => c.features.map Feature.signed) =
        classes.map fun c => c.features.map Feature.signed := by
      simpa [Function.comp_def, Class.signed] using congrArg (List.map Class.features) hq
    have hparents : q.classes.map Class.recordedParent =
        (withParents s.registry p.classes).map Class.recordedParent := by
      have hkept := Step.map_eachFrom Class.recordedParent
        (fun position => recordedParent_declareClass (classId position)) 0
        ⟨s.registry, s.log.push .hierarchyResolved⟩ (withParents s.registry p.classes)
      rw [hsignatures] at hkept
      rw [← hkept]
      simpa [Function.comp_def, Class.signed] using congrArg (List.map Class.recordedParent) hq
    -- the parents are recorded as they are already, and so are the signatures behind them
    have hagain := Step.Settles.eachFrom
      (fun position => Signature.settles_declareClass (classId position)) 0
      ⟨s.registry, s.log.push .hierarchyResolved⟩ (withParents s.registry p.classes) q.classes
      (by rw [hsignatures]; exact hfeatures)
    rw [hsignatures, ← withParents_eq_self hparents] at hagain
    rw [← hbuilds] at hbuild
    obtain ⟨log', hrun'⟩ := runFrom_declare_of_ok hbuild hagain
    rw [withParents_eq_self hparents] at hrun'
    exact ⟨log', hrun'⟩

end Analysis

end Lcpl
