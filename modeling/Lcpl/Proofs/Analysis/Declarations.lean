import Mathlib.Data.List.Forall2
import Lcpl.Analysis.Run
import Lcpl.Proofs.Each
import Lcpl.Proofs.Lockstep
import Lcpl.Proofs.Registry.Extension
import Lcpl.Proofs.Tree.Bare

/-!
# The registry of a program

The phases in front of the bodies build the registry and annotate the declarations. If they succeed,
the registry is coherent and knows every class of the program with all its features. They leave
everything in the program as it was, apart from the annotations.

## Main definitions

* `Registry.Declares` — the registry knows a feature of a class as it is declared
* `Program.Redeclares` — programs that differ in the annotations of their declarations

## Main results

* `Signature.runFrom_declareMethod`, `Signature.runFrom_declareAttribute` — the registration of a
  single feature
* `Analysis.declares_of_declare` — what the registry knows after the declarations
* `Program.coherent_of_declarations` — the registry of a program is coherent
* `Analysis.redeclares_declare` — only annotations change
-/

namespace Lcpl

/-- The programs differ in the annotations of their declarations only, and the second one shows the
built-in classes. -/
structure Program.Redeclares (p q : Program) : Prop where
  classes : q.classes.map Class.bare = p.classes.map Class.bare
  exprs : q.exprs = p.exprs
  line : q.line = p.line
  builtins : q.builtins = Registry.builtin.builtinClasses

/-! ### Parameters -/

namespace Registry

variable {registry : Registry} {id : ClassId}

/-- A parameter is registered under its name, with its declared type. -/
def DeclaresParam (registry : Registry) (param : Param) (known : ParamDef) : Prop :=
  known.name = param.name ∧ known.typeName = param.typeName ∧
    registry.resolve? param.typeName = some known.ty

theorem declaresParam_of_resolveParams {params annotated : List Param} {defs : List ParamDef}
    (h : registry.resolveParams params = (.ok defs, annotated)) :
    List.Forall₂ registry.DeclaresParam annotated defs := by
  induction params generalizing annotated defs with
  | nil =>
    obtain ⟨rfl, rfl⟩ := by simpa [resolveParams] using h
    exact .nil
  | cons param params ih =>
    rcases hrest : registry.resolveParams params with ⟨result, rest⟩
    cases htype : registry.resolve? param.typeName with
    | none => simp [resolveParams, resolveDeclared, htype] at h
    | some ty =>
      cases result with
      | error failure => simp [resolveParams, resolveDeclared, htype, hrest, Except.map] at h
      | ok defs =>
        obtain ⟨rfl, rfl⟩ := by
          simpa [resolveParams, resolveDeclared, htype, hrest, Except.map] using h
        exact .cons ⟨rfl, rfl, htype⟩ (ih hrest)

theorem resolve?_of_declaresParam {params : List Param} {defs : List ParamDef}
    (h : List.Forall₂ registry.DeclaresParam params defs) :
    ∀ known ∈ defs, registry.resolve? known.typeName = some known.ty := by
  induction h with
  | nil => simp
  | cons hknown _ ih =>
    rw [List.forall_mem_cons]
    exact ⟨by rw [hknown.2.1, hknown.2.2], ih⟩

theorem DeclaresParam.of_extends {after : Registry} {param : Param} {known : ParamDef}
    (h : registry.DeclaresParam param known) (hafter : registry.Extends after) :
    after.DeclaresParam param known := by
  refine ⟨h.1, h.2.1, ?_⟩
  rw [← h.2.2, resolve?, resolve?, hafter.find?_eq]

theorem map_bare_resolveParams (registry : Registry) (params : List Param) :
    (registry.resolveParams params).2.map Param.bare = params.map Param.bare := by
  induction params with
  | nil => rfl
  | cons param params ih =>
    cases htype : registry.resolve? param.typeName with
    | none => simp [resolveParams, resolveDeclared, htype]
    | some ty =>
      simp only [resolveParams, resolveDeclared, htype, List.map_cons, ih]
      rfl

/-- The registry knows a feature of the class `id` as it is declared. -/
def Declares (registry : Registry) (id : ClassId) : Feature → Prop
  | .method m => ∃ method, registry.ownMethod? id m.name = some method ∧
      method.returnTypeName = m.returnType ∧
      List.Forall₂ registry.DeclaresParam m.params method.params
  | .attribute a => ∃ attr, registry.ownAttribute? id a.name = some attr ∧
      attr.typeName = a.typeName

theorem Declares.of_extends {after : Registry} {feature : Feature}
    (h : registry.Declares id feature) (hafter : registry.Extends after) :
    after.Declares id feature := by
  rcases feature with m | a
  · obtain ⟨method, hmethod, hreturn, hparams⟩ := h
    exact ⟨method, hafter.ownMethod?_eq hmethod, hreturn,
      hparams.imp fun param known hknown => hknown.of_extends hafter⟩
  · obtain ⟨attr, hattr, htype⟩ := h
    exact ⟨attr, hafter.ownAttribute?_eq hattr, htype⟩

end Registry

/-! ### Single features -/

/-- A method as it is registered. -/
def Method.registered (m : Method) (registry : Registry) (owner : ClassId)
    (params : List ParamDef) : MethodDef :=
  { name := m.name, line := m.line, owner, params, returnTypeName := m.returnType
    returnTy := registry.resolveReturn? m.returnType }

/-- A method with its owner and its parameters annotated. -/
def Method.owned (m : Method) (className : String) (params : List Param) : Method :=
  { m with
    params, recordedOwner := some className
    recordedSelf := some (.receiver m.line className) }

/-- A method with its return type annotated, if it resolves. -/
def Method.returning (m : Method) (registry : Registry) : Method :=
  { m with
    recordedReturn :=
      match registry.resolveReturn? m.returnType with
      | some ty => registry.label? ty
      | none => m.recordedReturn }

namespace Signature

variable {registry : Registry} {log : Array Event}

/-- What the registration of a method does, apart from the log. -/
theorem runFrom_declareMethod (id : ClassId) (registry : Registry) (log : Array Event)
    (m : Method) :
    ∃ log', (declareMethod id).runFrom (⟨registry, log⟩, m) =
      match registry.class? id with
      | none => (.error (.fault (.missingClass id)), ⟨registry, log'⟩, m)
      | some c =>
        if (c.method? m.name).isSome then
          (.error (.rejected ⟨m.line, .duplicateMethod c.name m.name⟩), ⟨registry, log'⟩, m)
        else
          match registry.resolveParams m.params with
          | (.error failure, params) =>
              (.error failure, ⟨registry, log'⟩, m.owned c.name params)
          | (.ok defs, params) =>
              (.ok (), ⟨registry.set id
                  { c with methods := c.methods ++ [m.registered registry id defs] }, log'⟩,
                (m.owned c.name params).returning registry) := by
  unfold declareMethod
  simp only [Step.runFrom_bind, Step.runFrom_get]
  cases hc : registry.class? id with
  | none => exact ⟨log, rfl⟩
  | some c =>
    by_cases htaken : (c.method? m.name).isSome
    · refine ⟨log, ?_⟩
      simp [htaken, Step.runFrom_bind]
    · simp only [htaken, Step.runFrom_demand_some]
      have hnew : c.method? m.name = none := Option.not_isSome_iff_eq_none.mp htaken
      rcases registry.resolveParams m.params with ⟨failure | defs, params⟩
      · refine ⟨log, ?_⟩
        simp [Step.runFrom_bind, annotate, Method.owned]
      · cases hreturn : registry.resolveReturn? m.returnType with
        | some ty =>
          refine ⟨log.push (.methodResolved c.name m.name), ?_⟩
          simp [Step.runFrom_bind, annotate, emit, runFrom_onClass, hc, hnew,
            ClassDef.run_addMethod_of_none, hreturn, Method.owned, Method.returning,
            Method.registered]
        | none =>
          -- an unknown return type is only noted
          refine ⟨(log.push (.returnTypeUnresolved m.returnType c.name m.name)).push
            (.methodResolved c.name m.name), ?_⟩
          simp [Step.runFrom_bind, annotate, emit, runFrom_onClass, hc, hnew,
            ClassDef.run_addMethod_of_none, hreturn, Method.owned, Method.returning,
            Method.registered]

/-- What the registration of an attribute does. -/
theorem runFrom_declareAttribute (id : ClassId) (registry : Registry) (log : Array Event)
    (a : Attribute) :
    (declareAttribute id).runFrom (⟨registry, log⟩, a) =
      match registry.resolve? a.typeName with
      | none => (.error (.rejected ⟨a.line, .classNotFound a.typeName⟩), ⟨registry, log⟩, a)
      | some ty =>
        match registry.class? id with
        | none => (.error (.fault (.missingClass id)), ⟨registry, log⟩,
            { a with recordedType := registry.label? ty })
        | some c =>
          if (c.attribute? a.name).isSome then
            (.error (.rejected ⟨a.line, .duplicateAttribute c.name a.name⟩), ⟨registry, log⟩,
              { a with recordedType := registry.label? ty })
          else
            (.ok (), ⟨registry.set id
                { c with attributes := c.attributes ++ [⟨a.name, id, a.typeName, ty⟩] }, log⟩,
              { a with recordedType := registry.label? ty }) := by
  unfold declareAttribute Registry.resolveDeclared
  simp only [Step.runFrom_bind, Step.runFrom_get]
  cases registry.resolve? a.typeName with
  | none => rfl
  | some ty =>
    cases hc : registry.class? id with
    | none => rfl
    | some c =>
      simp only [Step.runFrom_ofExcept, annotate, Step.runFrom_modify, Step.runFrom_demand_some]
      by_cases htaken : (c.attribute? a.name).isSome
      · -- the registry is put back as it was
        simp [runFrom_onClass, hc, ClassDef.run_addAttribute_of_isSome, htaken,
          Registry.set_of_class?]
      · have hnew : c.attribute? a.name = none := Option.not_isSome_iff_eq_none.mp htaken
        simp [runFrom_onClass, hc, ClassDef.run_addAttribute_of_none, hnew]

variable {id : ClassId} {s s' : Resolving}

theorem declares_of_declareMethod {m m' : Method}
    (h : (declareMethod id).runFrom (s, m) = (.ok (), s', m')) :
    s.registry.Extends s'.registry ∧ s'.registry.Declares id (.method m') := by
  obtain ⟨registry, log⟩ := s
  obtain ⟨log', hrun⟩ := runFrom_declareMethod id registry log m
  rw [hrun] at h
  cases hc : registry.class? id with
  | none => simp [hc] at h
  | some c =>
    simp only [hc] at h
    split at h
    · cases h
    · next htaken =>
      rcases hparams : registry.resolveParams m.params with ⟨failure | defs, params⟩
      · simp [hparams] at h
      · obtain ⟨rfl, rfl⟩ := by simpa [hparams] using h
        have hknown := Registry.declaresParam_of_resolveParams hparams
        have howns : registry.OwnsMethod id (m.registered registry id defs) :=
          ⟨rfl, Registry.resolve?_of_declaresParam hknown, rfl⟩
        have hextends := Registry.extends_set hc
          { c with methods := c.methods ++ [m.registered registry id defs] } rfl rfl
          (List.append_nil _).symm (by simpa using howns) (by simp)
        refine ⟨hextends, m.registered registry id defs, ?_, rfl,
          hknown.imp fun param known hknown => hknown.of_extends hextends⟩
        -- no method of that name stands in front of the new one
        rw [Registry.ownMethod?, Registry.class?_set,
          if_pos ⟨rfl, Registry.lt_size_of_class? hc⟩, Option.bind_some, ClassDef.method?,
          List.find?_append]
        rw [ClassDef.method?, Bool.not_eq_true, Option.isSome_eq_false_iff,
          Option.isNone_iff_eq_none] at htaken
        rw [show ((m.owned c.name params).returning registry).name = m.name from rfl, htaken]
        simp [Method.registered]

theorem declares_of_declareAttribute {a a' : Attribute}
    (h : (declareAttribute id).runFrom (s, a) = (.ok (), s', a')) :
    s.registry.Extends s'.registry ∧ s'.registry.Declares id (.attribute a') := by
  obtain ⟨registry, log⟩ := s
  rw [runFrom_declareAttribute] at h
  cases htype : registry.resolve? a.typeName with
  | none => simp [htype] at h
  | some ty =>
    cases hc : registry.class? id with
    | none => simp [htype, hc] at h
    | some c =>
      simp only [htype, hc] at h
      split at h
      · cases h
      · next htaken =>
        obtain ⟨rfl, rfl⟩ := by simpa using h
        have howns : registry.OwnsAttribute id ⟨a.name, id, a.typeName, ty⟩ := ⟨rfl, htype⟩
        have hextends := Registry.extends_set hc
          { c with attributes := c.attributes ++ [⟨a.name, id, a.typeName, ty⟩] } rfl
          (List.append_nil _).symm rfl (by simp) (by simpa using howns)
        refine ⟨hextends, ⟨a.name, id, a.typeName, ty⟩, ?_, rfl⟩
        rw [Registry.ownAttribute?, Registry.class?_set,
          if_pos ⟨rfl, Registry.lt_size_of_class? hc⟩, Option.bind_some, ClassDef.attribute?,
          List.find?_append]
        rw [ClassDef.attribute?, Bool.not_eq_true, Option.isSome_eq_false_iff,
          Option.isNone_iff_eq_none] at htaken
        rw [htaken]
        simp

/-! ### Classes -/

theorem declares_of_onMethod {f f' : Feature}
    (h : (Feature.onMethod (declareMethod id)).runFrom (s, f) = (.ok (), s', f')) :
    s.registry.Extends s'.registry ∧ (f'.method?.isSome → s'.registry.Declares id f') := by
  rcases f with m | a
  · rw [Feature.runFrom_onMethod] at h
    rcases hm : (declareMethod id).runFrom (s, m) with ⟨result, t, m'⟩
    obtain ⟨rfl, rfl, rfl⟩ := by simpa [hm] using h
    exact (declares_of_declareMethod hm).imp_right fun h _ => h
  · obtain ⟨rfl, rfl⟩ := by simpa using h
    exact ⟨.refl _, fun h => nomatch h⟩

theorem declares_of_onAttribute {f f' : Feature}
    (h : (Feature.onAttribute (declareAttribute id)).runFrom (s, f) = (.ok (), s', f')) :
    s.registry.Extends s'.registry ∧ (f'.attribute?.isSome → s'.registry.Declares id f') := by
  rcases f with m | a
  · obtain ⟨rfl, rfl⟩ := by simpa using h
    exact ⟨.refl _, fun h => nomatch h⟩
  · rw [Feature.runFrom_onAttribute] at h
    rcases ha : (declareAttribute id).runFrom (s, a) with ⟨result, t, a'⟩
    obtain ⟨rfl, rfl, rfl⟩ := by simpa [ha] using h
    exact (declares_of_declareAttribute ha).imp_right fun h _ => h

/-- A pass over the features that declares what it handles has declared all of that in the end. -/
theorem declares_of_eachFrom {step : Step (Resolving × Feature) Unit} {handles : Feature → Prop}
    (hstep : ∀ s f s' f', step.runFrom (s, f) = (.ok (), s', f') →
      s.registry.Extends s'.registry ∧ (handles f' → s'.registry.Declares id f'))
    {features features' : List Feature}
    (h : Step.eachFrom (fun _ => step) 0 features s = (.ok (), s', features')) :
    s.registry.Extends s'.registry ∧
      ∀ f ∈ features', handles f → s'.registry.Declares id f := by
  obtain ⟨hextends, hall⟩ := Step.forall_of_eachFrom_ok
    (R := fun s t => s.registry.Extends t.registry)
    (Q := fun t _ f => handles f → t.registry.Declares id f)
    (fun s => .refl _) (fun s t u h h' => h.trans h') (fun _ => hstep)
    (fun s t _ f hst hf hhandles => (hf hhandles).of_extends hst) h
  refine ⟨hextends, fun f hf => ?_⟩
  obtain ⟨i, hi⟩ := List.mem_iff_getElem?.mp hf
  exact hall i f hi

theorem declares_of_declareClass {c c' : Class}
    (h : (declareClass id).runFrom (s, c) = (.ok (), s', c')) :
    s.registry.Extends s'.registry ∧ ∀ f ∈ c'.features, s'.registry.Declares id f := by
  obtain ⟨⟨⟩, ⟨t, c₁⟩, hfirst, hsecond⟩ := Step.runFrom_bind_eq_ok.mp h
  rw [Class.runFrom_eachFeature] at hfirst hsecond
  rcases hmethods : Step.eachFrom (fun _ => Feature.onMethod (declareMethod id)) 0 c.features s with
    ⟨result, t, first⟩
  rw [hmethods] at hfirst
  obtain ⟨rfl, rfl, rfl⟩ := by simpa using hfirst
  rcases hattrs : Step.eachFrom (fun _ => Feature.onAttribute (declareAttribute id)) 0 first t with
    ⟨result, u, second⟩
  -- the second pass leaves the methods in their places
  have hkept : second.map Feature.method? = first.map Feature.method? := by
    rw [← Feature.map_method?_onAttribute (declareAttribute id) 0 first t, hattrs]
  rw [hattrs] at hsecond
  obtain ⟨rfl, rfl, rfl⟩ := by simpa using hsecond
  obtain ⟨hst, hdeclared⟩ := declares_of_eachFrom (fun _ _ _ _ => declares_of_onMethod) hmethods
  obtain ⟨htu, hdeclared'⟩ :=
    declares_of_eachFrom (fun _ _ _ _ => declares_of_onAttribute) hattrs
  refine ⟨hst.trans htu, fun f hf => ?_⟩
  rcases f with m | a
  · have hm : some m ∈ first.map Feature.method? := hkept ▸ List.mem_map.mpr ⟨_, hf, rfl⟩
    obtain ⟨m' | a, hmem, hm⟩ := List.mem_map.mp hm
    · obtain rfl : m' = m := Option.some_inj.mp hm
      exact (hdeclared _ hmem rfl).of_extends htu
    · cases hm
  · exact hdeclared' _ hf rfl

/-! ### What stays -/

theorem bare_declareMethod (id : ClassId) (s : Resolving) (m : Method) :
    (Feature.method ((declareMethod id).runFrom (s, m)).2.2).bare = (Feature.method m).bare := by
  obtain ⟨registry, log⟩ := s
  obtain ⟨log', hrun⟩ := runFrom_declareMethod id registry log m
  have hparams := registry.map_bare_resolveParams m.params
  rw [hrun]
  cases registry.class? id with
  | none => rfl
  | some c =>
    dsimp only
    split
    · rfl
    · rcases hresolve : registry.resolveParams m.params with ⟨failure | defs, params⟩
      all_goals
        rw [hresolve] at hparams
        simp only [Feature.bare, Method.returning, Method.owned, hparams]

theorem bare_declareAttribute (id : ClassId) (s : Resolving) (a : Attribute) :
    (Feature.attribute ((declareAttribute id).runFrom (s, a)).2.2).bare =
      (Feature.attribute a).bare := by
  rw [runFrom_declareAttribute]
  split
  · rfl
  · split
    · rfl
    · split <;> rfl

theorem bare_eachFeature {step : Step (Resolving × Feature) Unit}
    (hstep : ∀ s f, (step.runFrom (s, f)).2.2.bare = f.bare) (s : Resolving × Class) :
    ((Class.eachFeature step).runFrom s).2.2.bare = s.2.bare := by
  obtain ⟨s, c⟩ := s
  simp only [Class.runFrom_eachFeature, Class.bare, Step.map_eachFrom Feature.bare fun _ => hstep]

theorem bare_declareClass (id : ClassId) (s : Resolving) (c : Class) :
    ((declareClass id).runFrom (s, c)).2.2.bare = c.bare := by
  refine Step.runFrom_bind_invariant (fun s => s.2.bare) (bare_eachFeature ?_)
    (fun _ => bare_eachFeature ?_) (s, c)
  · rintro s (m | a)
    · exact bare_declareMethod id s m
    · rfl
  · rintro s (m | a)
    · rfl
    · exact bare_declareAttribute id s a

end Signature

/-! ### The hierarchy -/

namespace Hierarchy

variable {s s' : Resolving}

/-- Registration keeps the registry coherent, and the classes stand in it in order. -/
theorem coherent_of_registerFrom {k : Nat} {classes : List Class}
    (h : (registerFrom k classes).runFrom s = (.ok (), s')) (hr : s.registry.Coherent)
    (hsettled : s.registry.Settled) (hsize : s.registry.size = Registry.builtin.size + k) :
    s'.registry.Coherent ∧
      (∀ id name, s.registry.name? id = some name → s'.registry.name? id = some name) ∧
      ∀ i c, classes[i]? = some c → s'.registry.name? (Analysis.classId (k + i)) = some c.name := by
  induction classes generalizing k s with
  | nil =>
    obtain rfl : s = s' := by simpa [registerFrom] using h
    exact ⟨hr, fun _ _ h => h, by simp⟩
  | cons c classes ih =>
    cases hadd : s.registry.add? (.declared c.name c.line (.declared k) c.parent) with
    | none =>
      rw [runFrom_registerFrom_of_none hadd] at h
      cases h
    | some registry =>
      rw [runFrom_registerFrom_of_some hadd] at h
      have hnext : registry.size = Registry.builtin.size + (k + 1) := by
        rw [Registry.size_of_add? hadd, hsize, Nat.add_assoc]
      obtain ⟨hr', hkept, hall⟩ := ih h (hr.add? hsettled hadd rfl rfl)
        (hsettled.add? hadd rfl) hnext
      -- the class is the last one of the registry, in front of those that follow
      have hnew (id : ClassId) := Registry.class?_of_add? hadd id
      refine ⟨hr', fun id name hname => hkept id name ?_, fun i c' hc' => ?_⟩
      · obtain ⟨d, hd, rfl⟩ := Option.map_eq_some_iff.mp hname
        rw [Registry.name?, Registry.class?_eq_some_of_add? hadd hd, Option.map_some]
      · cases i with
        | zero =>
          obtain rfl : c = c' := by simpa using hc'
          refine hkept _ _ ?_
          rw [Registry.name?, hnew, if_pos (by simp [Registry.next, Analysis.classId, hsize])]
          rfl
        | succ i =>
          rw [show k + (i + 1) = k + 1 + i by omega]
          exact hall i c' (by simpa using hc')

theorem extends_of_linkParent {id : ClassId} (h : (linkParent id).runFrom s = (.ok (), s')) :
    s.registry.Extends s'.registry := by
  cases hc : s.registry.class? id with
  | none => simp [runFrom_linkParent_of_none hc] at h
  | some c =>
    cases hparent : declaredParent s.registry c with
    | error failure => simp [runFrom_linkParent_of_error hc hparent] at h
    | ok parent =>
      obtain rfl := by simpa [runFrom_linkParent_of_ok hc hparent] using h
      exact Registry.extends_set hc { c with parent := some parent } rfl
        (List.append_nil _).symm (List.append_nil _).symm (by simp) (by simp)

theorem extends_of_forM_linkParent {ids : List (ClassId × Nat)}
    (h : (ids.forM fun (id, _) => linkParent id).runFrom s = (.ok (), s')) :
    s.registry.Extends s'.registry := by
  induction ids generalizing s with
  | nil =>
    obtain rfl : s = s' := by simpa using h
    exact .refl _
  | cons id ids ih =>
    rw [List.forM_eq_forM, List.forM_cons] at h
    obtain ⟨⟨⟩, t, hid, hids⟩ := Step.runFrom_bind_eq_ok.mp h
    exact (extends_of_linkParent hid).trans (ih hids)

/-- Registers the classes of a program and links them to their parents. -/
def build (classes : List Class) : Step Resolving Unit := do
  register classes
  linkParents

theorem coherent_of_build {classes : List Class} {log : Array Event}
    (h : (build classes).runFrom ⟨.builtin, log⟩ = (.ok (), s')) :
    s'.registry.Coherent ∧
      ∀ i c, classes[i]? = some c → s'.registry.name? (Analysis.classId i) = some c.name := by
  obtain ⟨⟨⟩, t, hregister, hlink⟩ := Step.runFrom_bind_eq_ok.mp h
  obtain ⟨⟨⟩, u, hclasses, hemit⟩ := Step.runFrom_bind_eq_ok.mp hregister
  obtain rfl := by simpa [Resolving.emit] using hemit
  obtain ⟨hr, -, hnames⟩ := coherent_of_registerFrom hclasses Registry.coherent_builtin
    Registry.settled_builtin rfl
  rw [linkParents, Step.runFrom_bind_of_ok (Step.runFrom_get _)] at hlink
  have hextends := extends_of_forM_linkParent hlink
  refine ⟨hextends.coherent hr, fun i c hc => ?_⟩
  have hname := hnames i c hc
  rw [Nat.zero_add] at hname
  exact hextends.name?_eq hname

end Hierarchy

/-! ### The phases in front of the bodies -/

namespace Analysis

/-- The classes of a program with their parents recorded. -/
def withParents (registry : Registry) (classes : List Class) : List Class :=
  classes.mapIdx fun position c =>
    { c with recordedParent := (registry.parent? (classId position)).bind registry.name? }

theorem runFrom_resolveHierarchy (p : Program) :
    resolveHierarchy.runFrom (start p) =
      (((Hierarchy.build p.classes).runFrom ⟨.builtin, #[]⟩).1,
        ⟨(start p).program, ((Hierarchy.build p.classes).runFrom ⟨.builtin, #[]⟩).2.registry,
          ((Hierarchy.build p.classes).runFrom ⟨.builtin, #[]⟩).2.log⟩) := rfl

/-- If the hierarchy cannot be built, nothing in the program is touched. -/
theorem runFrom_declare_of_error {p : Program} {failure : Failure} {s : Resolving}
    (h : (Hierarchy.build p.classes).runFrom ⟨.builtin, #[]⟩ = (.error failure, s)) :
    declare.runFrom (start p) = (.error failure, ⟨(start p).program, s.registry, s.log⟩) := by
  have hhierarchy := runFrom_resolveHierarchy p
  rw [h] at hhierarchy
  rw [declare, Step.runFrom_bind_of_error hhierarchy]

/-- Behind the hierarchy, the signatures are resolved class by class. -/
theorem runFrom_declare_of_ok {p : Program} {s t : Resolving} {classes : List Class}
    {result : Except Failure Unit}
    (h : (Hierarchy.build p.classes).runFrom ⟨.builtin, #[]⟩ = (.ok (), s))
    (hsignatures : Step.eachFrom (fun position => Signature.declareClass (classId position)) 0
      (withParents s.registry p.classes) ⟨s.registry, s.log.push .hierarchyResolved⟩ =
        (result, t, classes)) :
    ∃ log, declare.runFrom (start p) =
      (result, ⟨{ (start p).program with classes }, t.registry, log⟩) := by
  have hhierarchy := runFrom_resolveHierarchy p
  rw [h] at hhierarchy
  rw [declare, Step.runFrom_bind_of_ok hhierarchy, emit, Step.runFrom_bind_of_ok
    (Step.runFrom_modify ..), recordParents, Step.runFrom_bind_of_ok (Step.runFrom_modify ..)]
  have hresolve : resolveSignatures.runFrom
      ⟨{ (start p).program with classes := withParents s.registry p.classes }, s.registry,
        s.log.push .hierarchyResolved⟩ =
      (result, ⟨{ (start p).program with classes }, t.registry, t.log⟩) := by
    rw [resolveSignatures, Step.runFrom_within, Step.runFrom_each, hsignatures]
  cases result with
  | error failure => exact ⟨t.log, Step.runFrom_bind_of_error hresolve⟩
  | ok =>
    refine ⟨t.log.push .signaturesResolved, ?_⟩
    exact (Step.runFrom_bind_of_ok hresolve).trans rfl

/-- How the phases in front of the bodies end, with what they leave. -/
inductive Declaring (p : Program) : Except Failure Unit × Run → Prop where
  /-- The hierarchy cannot be built. -/
  | unbuilt {failure s}
      (hbuild : (Hierarchy.build p.classes).runFrom ⟨.builtin, #[]⟩ = (.error failure, s)) :
      Declaring p (.error failure, ⟨(start p).program, s.registry, s.log⟩)
  /-- The signatures are resolved behind it, or one of them is rejected. -/
  | signed {s result t classes}
      (hbuild : (Hierarchy.build p.classes).runFrom ⟨.builtin, #[]⟩ = (.ok (), s))
      (hsignatures : Step.eachFrom (fun position => Signature.declareClass (classId position)) 0
        (withParents s.registry p.classes) ⟨s.registry, s.log.push .hierarchyResolved⟩ =
          (result, t, classes))
      (log : Array Event) :
      Declaring p (result, ⟨{ (start p).program with classes }, t.registry, log⟩)

/-- The phases in front of the bodies end in one of these ways. -/
theorem declaring (p : Program) : Declaring p (declare.runFrom (start p)) := by
  rcases hbuild : (Hierarchy.build p.classes).runFrom ⟨.builtin, #[]⟩ with ⟨failure | ⟨⟩, s⟩
  · rw [runFrom_declare_of_error hbuild]
    exact .unbuilt hbuild
  · rcases hsignatures : Step.eachFrom (fun position => Signature.declareClass (classId position)) 0
      (withParents s.registry p.classes) ⟨s.registry, s.log.push .hierarchyResolved⟩ with
      ⟨result, t, classes⟩
    obtain ⟨log, hrun⟩ := runFrom_declare_of_ok hbuild hsignatures
    rw [hrun]
    exact .signed hbuild hsignatures log

/-- Only annotations change. -/
theorem redeclares_declare (p : Program) : p.Redeclares (declare.runFrom (start p)).2.program := by
  have hdeclaring := declaring p
  generalize declare.runFrom (start p) = ran at hdeclaring ⊢
  cases hdeclaring with
  | unbuilt => exact ⟨rfl, rfl, rfl, rfl⟩
  | @signed s result t classes hbuild hsignatures log =>
    have hbare := Step.map_eachFrom Class.bare
      (fun position => Signature.bare_declareClass (classId position)) 0
      ⟨s.registry, s.log.push .hierarchyResolved⟩ (withParents s.registry p.classes)
    rw [hsignatures] at hbare
    refine ⟨hbare.trans ?_, rfl, rfl, rfl⟩
    refine List.ext_getElem? fun i => ?_
    simp only [withParents, List.getElem?_map, List.getElem?_mapIdx, Option.map_map]
    rfl

/-- If the declarations are accepted, the registry is coherent, has the classes in order, and knows
every feature. -/
theorem declares_of_declare {p : Program} {r : Run} (h : declare.runFrom (start p) = (.ok (), r)) :
    r.registry.Coherent ∧ ∀ i c, r.program.classes[i]? = some c →
      r.registry.name? (classId i) = some c.name ∧
        ∀ f ∈ c.features, r.registry.Declares (classId i) f := by
  have hbare := (redeclares_declare p).classes
  have hdeclaring := declaring p
  rw [h] at hbare hdeclaring
  cases hdeclaring with
  | @signed s _ t classes hbuild hsignatures log =>
    obtain ⟨hr, hnames⟩ := Hierarchy.coherent_of_build hbuild
    obtain ⟨hextends, hall⟩ := Step.forall_of_eachFrom_ok
      (R := fun s t => s.registry.Extends t.registry)
      (Q := fun t i c => ∀ f ∈ c.features, t.registry.Declares (classId i) f)
      (fun s => .refl _) (fun s t u h h' => h.trans h')
      (fun k s c s' c' => Signature.declares_of_declareClass)
      (fun s t i c hst hc f hf => (hc f hf).of_extends hst) hsignatures
    refine ⟨hextends.coherent hr, fun i c hc => ⟨?_, ?_⟩⟩
    · -- registered under the name that was declared, which no phase changes
      have hi : (p.classes.map Class.bare)[i]? = some c.bare := by
        rw [← hbare, List.getElem?_map, hc, Option.map_some]
      obtain ⟨c₀, hc₀, hname⟩ := Option.map_eq_some_iff.mp (List.getElem?_map ▸ hi)
      have hname : c₀.name = c.name := by
        simpa [Class.bare] using congrArg Class.name hname
      rw [← hname]
      exact hextends.name?_eq (hnames i c₀ hc₀)
    · have := hall i c hc
      rwa [Nat.zero_add] at this

end Analysis

theorem Program.coherent_of_declarations {p : Program} {registry : Registry}
    (h : p.declarations = .ok registry) : registry.Coherent := by
  unfold declarations at h
  rcases hrun : Analysis.declare.runFrom (Analysis.start p) with ⟨failure | ⟨⟩, r⟩
  · rw [hrun] at h
    cases h
  · rw [hrun] at h
    obtain rfl := Except.ok.inj h
    exact (Analysis.declares_of_declare hrun).1

end Lcpl
