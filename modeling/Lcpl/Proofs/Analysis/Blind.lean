import Lcpl.Proofs.Analysis.Accepted
import Lcpl.Proofs.Analysis.Redeclare
import Lcpl.Proofs.Body.Blind

/-!
# Annotations of the input have no influence

A program may come with annotations, as an earlier run or another tool has left them. No phase of
the analysis reads them: two programs that differ in annotations only are accepted or rejected
alike, and what is made of them differs in annotations only. In an accepted program, the nodes that
belong to it are the same from both.

The phases are compared one by one. Each of them is a step on a list of declarations beside a state,
and is blind to what a view of the declarations leaves out.

## Main definitions

* `Step.BlindBeside` — a step on a declaration beside a state

## Main results

* `Step.BlindBeside.each` — a step on every element of a list
* `Signature.blindBeside_declareClass`, `Analysis.blindBeside_checkClass` — the two passes over the
  classes
* `Program.analyse_of_bare_eq` — annotations of the input have no influence
-/

namespace Lcpl

variable {σ α β : Type}

/-! ### Declarations beside a state -/

namespace Step

/-- The step ends alike from states that are alike, with declarations beside them that look the same
in the view. The nodes in `known` are the same before the step, and after it those that the
declaration leads to as well. -/
def BlindBeside (alike : Set ExprId → σ → σ → Prop) (view : α → β) (leads : α → Set ExprId)
    (step : Step (σ × α) Unit) : Prop :=
  ∀ known, Lockstep (fun s t => alike ∅ s.1 t.1 ∧ view s.2 = view t.2)
    (fun s t => alike known s.1 t.1 ∧ view s.2 = view t.2) step step
    fun _ _ s t => alike (leads s.2 ∪ known) s.1 t.1 ∧ view s.2 = view t.2

variable {alike : Set ExprId → σ → σ → Prop} {view : α → β} {leads : α → Set ExprId}

theorem alike_eachFrom {step : Nat → Step (σ × α) Unit}
    (hstep : ∀ k, BlindBeside alike view leads (step k)) (k : Nat) (xs ys : List α) (s t : σ)
    (known : Set ExprId) (hst : alike known s t) (hview : xs.map view = ys.map view) :
    Alike (fun s t => alike ∅ s.1 t.1 ∧ s.2.map view = t.2.map view)
      (fun _ _ s t => alike ({id | ∃ x ∈ s.2, id ∈ leads x} ∪ known) s.1 t.1 ∧
        s.2.map view = t.2.map view)
      (eachFrom step k xs s) (eachFrom step k ys t) := by
  induction xs generalizing k ys s t known with
  | nil =>
    obtain rfl := List.map_eq_nil_iff.mp hview.symm
    refine ⟨?_, rfl⟩
    simpa using hst
  | cons x xs ih =>
    obtain ⟨y, ys, rfl, hy, hys⟩ := List.map_eq_cons_iff.mp hview.symm
    rcases (hstep k known (s, x) (t, y) ⟨hst, hy.symm⟩).cases with
      ⟨_, _, ⟨s', x'⟩, ⟨t', y'⟩, hs, ht, hst', hview'⟩ |
      ⟨failure, ⟨s', x'⟩, ⟨t', y'⟩, hs, ht, hst', hview'⟩
    · rw [eachFrom_cons_of_ok hs, eachFrom_cons_of_ok ht]
      rcases (ih (k + 1) ys s' t' _ hst' hys.symm).cases with
        ⟨_, _, ⟨s'', xs'⟩, ⟨t'', ys'⟩, hxs, hys, hst'', hviews⟩ |
        ⟨failure, ⟨s'', xs'⟩, ⟨t'', ys'⟩, hxs, hys, hst'', hviews⟩
      · rw [hxs, hys]
        refine ⟨?_, ?_⟩
        · -- what the first element leads to was known when the others were handled
          have hknown : {id | ∃ x ∈ x' :: xs', id ∈ leads x} ∪ known =
              {id | ∃ x ∈ xs', id ∈ leads x} ∪ (leads x' ∪ known) := by
            ext id
            simp only [Set.mem_union, Set.mem_ofPred_eq, List.mem_cons, exists_eq_or_imp]
            exact or_assoc.trans or_left_comm
          rw [hknown]
          exact hst''
        · rw [List.map_cons, hview', hviews, List.map_cons]
      · rw [hxs, hys]
        exact ⟨rfl, hst'', by rw [List.map_cons, hview', hviews, List.map_cons]⟩
    · rw [eachFrom_cons_of_error hs, eachFrom_cons_of_error ht]
      exact ⟨rfl, hst', by rw [List.map_cons, hview', List.map_cons, hys]⟩

/-- A step on every element of a list. -/
theorem BlindBeside.each {step : Nat → Step (σ × α) Unit}
    (hstep : ∀ k, BlindBeside alike view leads (step k)) :
    BlindBeside alike (List.map view) (fun xs => {id | ∃ x ∈ xs, id ∈ leads x}) (each step) := by
  rintro known ⟨s, xs⟩ ⟨t, ys⟩ ⟨hst, hview⟩
  rw [runFrom_each, runFrom_each]
  exact alike_eachFrom hstep 0 xs ys s t known hst hview

end Step

/-! ### Features of a class -/

namespace Feature

variable {alike : Set ExprId → σ → σ → Prop} {leads : Feature → Set ExprId}

theorem blindBeside_onMethod {step : Step (σ × Method) Unit}
    (h : Step.BlindBeside alike (fun m => (Feature.method m).bare)
      (fun m => leads (.method m)) step)
    (hattribute : ∀ a, leads (.attribute a) = ∅) :
    Step.BlindBeside alike bare leads (onMethod step) := by
  rintro known ⟨s, f⟩ ⟨t, g⟩ ⟨hst, hview⟩
  -- the view tells methods from attributes, so the features are of one kind
  rcases f with m | a <;> rcases g with m' | a'
  · rw [runFrom_onMethod, runFrom_onMethod]
    rcases (h known (s, m) (t, m') ⟨hst, hview⟩).cases with
      ⟨_, _, _, _, hs, ht, hpost⟩ | ⟨_, _, _, hs, ht, hfailed⟩
    · rw [hs, ht]
      exact hpost
    · rw [hs, ht]
      exact ⟨rfl, hfailed⟩
  · cases hview
  · cases hview
  · refine ⟨?_, hview⟩
    rw [hattribute, Set.empty_union]
    exact hst

theorem blindBeside_onAttribute {step : Step (σ × Attribute) Unit}
    (h : Step.BlindBeside alike (fun a => (Feature.attribute a).bare)
      (fun a => leads (.attribute a)) step)
    (hmethod : ∀ m, leads (.method m) = ∅) :
    Step.BlindBeside alike bare leads (onAttribute step) := by
  rintro known ⟨s, f⟩ ⟨t, g⟩ ⟨hst, hview⟩
  -- features that look alike are of the same kind
  rcases f with m | a <;> rcases g with m' | a'
  · refine ⟨?_, hview⟩
    rw [hmethod, Set.empty_union]
    exact hst
  · cases hview
  · cases hview
  · rw [runFrom_onAttribute, runFrom_onAttribute]
    rcases (h known (s, a) (t, a') ⟨hst, hview⟩).cases with
      ⟨_, _, _, _, hs, ht, hpost⟩ | ⟨_, _, _, hs, ht, hfailed⟩
    · rw [hs, ht]
      exact hpost
    · rw [hs, ht]
      exact ⟨rfl, hfailed⟩

end Feature

/-- A step on every feature of a class. -/
theorem Class.blindBeside_eachFeature {alike : Set ExprId → σ → σ → Prop}
    {leads : Feature → Set ExprId} {step : Step (σ × Feature) Unit}
    (h : Step.BlindBeside alike Feature.bare leads step) :
    Step.BlindBeside alike Class.bare (fun c => {id | ∃ f ∈ c.features, id ∈ leads f})
      (Class.eachFeature step) := by
  rintro known ⟨s, c⟩ ⟨t, d⟩ ⟨hst, hview⟩
  dsimp only at hst hview
  obtain ⟨hline, hname, hparent, hfeatures, -⟩ := Class.mk.inj hview
  rw [Class.runFrom_eachFeature, Class.runFrom_eachFeature]
  rcases (Step.alike_eachFrom (fun _ => h) 0 c.features d.features s t known hst
    hfeatures).cases with
    ⟨_, _, ⟨s', fs⟩, ⟨t', gs⟩, hs, ht, hst', hviews⟩ | ⟨_, ⟨s', fs⟩, ⟨t', gs⟩, hs, ht, hst', hviews⟩
  · rw [hs, ht]
    refine ⟨hst', ?_⟩
    simp only [Class.bare, hline, hname, hparent, hviews]
  · rw [hs, ht]
    refine ⟨rfl, hst', ?_⟩
    simp only [Class.bare, hline, hname, hparent, hviews]

/-! ### Signatures -/

/-- Parameters are resolved by their types and lines. -/
theorem Registry.resolveParams_fst_of_bare (registry : Registry) {params params' : List Param}
    (h : params.map Param.bare = params'.map Param.bare) :
    (registry.resolveParams params).1 = (registry.resolveParams params').1 := by
  induction params generalizing params' with
  | nil =>
    obtain rfl := List.map_eq_nil_iff.mp h.symm
    rfl
  | cons param params ih =>
    obtain ⟨param', params', rfl, hparam, hparams⟩ := List.map_eq_cons_iff.mp h.symm
    obtain ⟨hline, hname, htype, -⟩ := Param.mk.inj hparam
    rw [resolveParams, resolveParams, hline, hname, htype]
    cases registry.resolveDeclared param.typeName param.line with
    | error failure => rfl
    | ok ty =>
      dsimp only
      rw [ih hparams.symm]

namespace Signature

variable (id : ClassId)

theorem blindBeside_declareMethod :
    Step.BlindBeside (fun _ s t => s = t) (fun m => (Feature.method m).bare) (fun _ => ∅)
      (declareMethod id) := by
  rintro known ⟨⟨registry, log⟩, m⟩ ⟨s, m'⟩ ⟨rfl, hview⟩
  obtain ⟨line, name, params, returnType, body, recordedReturn, recordedSelf, recordedOwner⟩ := m
  obtain ⟨line', name', params', returnType', body', recordedReturn', recordedSelf',
    recordedOwner'⟩ := m'
  obtain ⟨rfl, rfl, hparams, rfl, rfl, -⟩ := by simpa [Feature.bare, Method.declared] using hview
  have hdefs := registry.resolveParams_fst_of_bare hparams
  have hbare : (registry.resolveParams params).2.map Param.bare =
      (registry.resolveParams params').2.map Param.bare := by
    rw [Registry.map_bare_resolveParams, hparams, Registry.map_bare_resolveParams]
  unfold declareMethod
  simp only [Step.runFrom_bind, Step.runFrom_get]
  cases hc : registry.class? id with
  | none => exact ⟨rfl, rfl, hview⟩
  | some c =>
    by_cases htaken : (c.method? name).isSome
    · simp [htaken, Step.runFrom_bind, Step.Alike, hview]
    · have hnew : c.method? name = none := Option.not_isSome_iff_eq_none.mp htaken
      -- the parameters of both methods are resolved to the same definitions, or fail alike
      rcases hrun : registry.resolveParams params with ⟨failure | defs, annotated⟩ <;>
        rcases hrun' : registry.resolveParams params' with ⟨failure' | defs', annotated'⟩
      all_goals
        rw [hrun, hrun'] at hdefs hbare
        dsimp only at hdefs hbare
      · cases hdefs
        simp [htaken, Step.runFrom_bind, annotate, Step.Alike, Feature.bare, Method.declared, hbare]
      · cases hdefs
      · cases hdefs
      · cases hdefs
        cases registry.resolveReturn? returnType with
        | some ty =>
          simp [hnew, Step.runFrom_bind, annotate, emit, runFrom_onClass, hc,
            ClassDef.run_addMethod_of_none, Step.Alike, Feature.bare, Method.declared, hbare]
        | none =>
          simp [hnew, Step.runFrom_bind, annotate, emit, runFrom_onClass, hc,
            ClassDef.run_addMethod_of_none, Step.Alike, Feature.bare, Method.declared, hbare]

theorem blindBeside_declareAttribute :
    Step.BlindBeside (fun _ s t => s = t) (fun a => (Feature.attribute a).bare) (fun _ => ∅)
      (declareAttribute id) := by
  rintro known ⟨⟨registry, log⟩, a⟩ ⟨s, a'⟩ ⟨rfl, hview⟩
  obtain ⟨line, name, typeName, init, recordedType, recordedSelf⟩ := a
  obtain ⟨line', name', typeName', init', recordedType', recordedSelf'⟩ := a'
  obtain ⟨rfl, rfl, rfl, rfl⟩ := by simpa [Feature.bare, Attribute.declared] using hview
  rw [runFrom_declareAttribute, runFrom_declareAttribute]
  cases registry.resolve? typeName with
  | none => exact ⟨rfl, rfl, rfl⟩
  | some ty =>
    cases registry.class? id with
    | none => exact ⟨rfl, rfl, rfl⟩
    | some c =>
      dsimp only
      split_ifs
      · exact ⟨rfl, rfl, rfl⟩
      · exact ⟨rfl, rfl⟩

/-- The features of a class, in both passes. -/
theorem blindBeside_declareClass :
    Step.BlindBeside (fun _ s t => s = t) Class.bare (fun _ => ∅) (declareClass id) := by
  intro known
  have hmethods : Step.BlindBeside (fun _ s t => s = t) Feature.bare (fun _ => ∅)
      (Feature.onMethod (declareMethod id)) :=
    Feature.blindBeside_onMethod (blindBeside_declareMethod id) fun _ => rfl
  have hattributes : Step.BlindBeside (fun _ s t => s = t) Feature.bare (fun _ => ∅)
      (Feature.onAttribute (declareAttribute id)) :=
    Feature.blindBeside_onAttribute (blindBeside_declareAttribute id) fun _ => rfl
  exact .bind (Class.blindBeside_eachFeature hmethods known) fun _ _ =>
    Class.blindBeside_eachFeature hattributes known

end Signature

/-! ### Bodies -/

/-- The expressions differ in annotations only, and the given nodes are the same in both. -/
def Checking.Alike (registry : Registry) (known : Set ExprId) (s t : Checking) : Prop :=
  Session.Alike registry known ⟨s.arena, .empty, s.log⟩ ⟨t.arena, .empty, t.log⟩

namespace Analysis

open Step (Lockstep)

variable {registry : Registry} {id : ClassId} {known : Set ExprId}

/-- The check of a root, in front of a step that puts the result into its declaration. -/
theorem alike_bind_body {x y : α} {s t : Checking} {step : Body ExprId}
    {known' : ExprId → Set ExprId} {next next' : ExprId → Step (Checking × α) Unit}
    {failed : Checking × α → Checking × α → Prop}
    {post : Unit → Unit → Checking × α → Checking × α → Prop}
    (h : Body.Blind registry known step known') (hst : Checking.Alike registry known s t)
    (hfailed : ∀ s t, Checking.Alike registry ∅ s t → failed (s, x) (t, y))
    (hnext : ∀ root s t, Checking.Alike registry (known' root) s t →
      Step.Alike failed post ((next root).runFrom (s, x)) ((next' root).runFrom (t, y))) :
    Step.Alike failed post ((body step >>= next).runFrom (s, x))
      ((body step >>= next').runFrom (t, y)) := by
  obtain ⟨a, log⟩ := s
  obtain ⟨b, log'⟩ := t
  rcases (h _ _ hst).cases with
    ⟨root, _, s', t', hs, ht, rfl, hst'⟩ | ⟨failure, s', t', hs, ht, hst'⟩
  · rw [Step.runFrom_bind_of_ok (Feature.runFrom_body x hs),
      Step.runFrom_bind_of_ok (Feature.runFrom_body y ht)]
    exact hnext root _ _ ⟨hst'.arena, rfl, hst'.log, hst'.agrees⟩
  · rw [Step.runFrom_bind_of_error (Feature.runFrom_body x hs),
      Step.runFrom_bind_of_error (Feature.runFrom_body y ht)]
    exact ⟨rfl, hfailed _ _ ⟨hst'.arena, rfl, hst'.log, hst'.agrees⟩⟩

theorem blind_check {Γ : Context} (e : Expectation) (root : ExprId) :
    Body.Blind Γ.registry known (e.check Γ root) fun root => insert root known := by
  cases e with
  | anything => exact .bind (Body.blind_checkExpr root) fun _ => .pure subset_rfl
  | initial ty site => exact Body.blind_checkAgainst root ty site
  | returned ty line => exact Body.blind_checkReturn root ty line

theorem blindBeside_checkAttribute :
    Step.BlindBeside (Checking.Alike registry) (fun a => (Feature.attribute a).bare)
      (fun a => {root | a.init = some root}) (checkAttribute registry id) := by
  rintro known ⟨s, a⟩ ⟨t, a'⟩ ⟨hst, hview⟩
  obtain ⟨line, name, typeName, init, recordedType, recordedSelf⟩ := a
  obtain ⟨line', name', typeName', init', recordedType', recordedSelf'⟩ := a'
  -- the annotations may differ, and the check reads none of them
  obtain ⟨rfl, rfl, rfl, rfl⟩ := by simpa [Feature.bare, Attribute.declared] using hview
  dsimp only at hst
  have hleft : Checking.Alike registry ∅ s t := hst.left
  rw [checkAttribute, attributeBy, Step.runFrom_bind_of_ok (Step.runFrom_get _),
    Step.runFrom_bind_of_ok (Step.runFrom_get _)]
  dsimp only
  cases registry.checkRedefinition id name with
  | error failure => exact ⟨rfl, hleft, rfl⟩
  | ok =>
    rw [Step.runFrom_bind_of_ok (Step.runFrom_ofExcept ..),
      Step.runFrom_bind_of_ok (Step.runFrom_ofExcept ..)]
    cases init with
    | none => exact ⟨hst.mono (by simp), rfl⟩
    | some init =>
      dsimp only
      cases registry.ownAttribute? id name with
      | none => exact ⟨rfl, hleft, rfl⟩
      | some attr =>
        rw [Step.runFrom_bind_of_ok (Step.runFrom_demand_some ..),
          Step.runFrom_bind_of_ok (Step.runFrom_demand_some ..)]
        cases registry.name? id with
        | none => exact ⟨rfl, hleft, rfl⟩
        | some className =>
          rw [Step.runFrom_bind_of_ok (Step.runFrom_demand_some ..),
            Step.runFrom_bind_of_ok (Step.runFrom_demand_some ..),
            Step.runFrom_bind_of_ok (Step.runFrom_modify ..),
            Step.runFrom_bind_of_ok (Step.runFrom_modify ..)]
          refine alike_bind_body
            (blind_check (Γ := ⟨registry, id, line, []⟩) (.initial attr.ty line) init) hst
            (fun s t hst => ⟨hst, rfl⟩) ?_
          intro root s t hst
          exact ⟨hst.mono (by simp), rfl⟩

theorem blindBeside_checkMethod :
    Step.BlindBeside (Checking.Alike registry) (fun m => (Feature.method m).bare)
      (fun m => {root | m.body = some root}) (checkMethod registry id) := by
  rintro known ⟨s, m⟩ ⟨t, m'⟩ ⟨hst, hview⟩
  obtain ⟨line, name, params, returnType, body, recordedReturn, recordedSelf, recordedOwner⟩ := m
  obtain ⟨line', name', params', returnType', body', recordedReturn', recordedSelf',
    recordedOwner'⟩ := m'
  -- the parameters are alike up to annotations, but the check takes those of the registry
  obtain ⟨rfl, rfl, hparams, rfl, rfl, -⟩ := by simpa [Feature.bare, Method.declared] using hview
  dsimp only at hst
  have hleft : Checking.Alike registry ∅ s t := hst.left
  rw [checkMethod, methodBy, Step.runFrom_bind_of_ok (Step.runFrom_get _),
    Step.runFrom_bind_of_ok (Step.runFrom_get _)]
  dsimp only
  cases registry.checkOverride id name with
  | error failure => exact ⟨rfl, hleft, hview⟩
  | ok =>
    rw [Step.runFrom_bind_of_ok (Step.runFrom_ofExcept ..),
      Step.runFrom_bind_of_ok (Step.runFrom_ofExcept ..)]
    cases body with
    | none => exact ⟨hst.mono (by simp), hview⟩
    | some root =>
      dsimp only
      cases registry.ownMethod? id name with
      | none => exact ⟨rfl, hleft, hview⟩
      | some method =>
        rw [Step.runFrom_bind_of_ok (Step.runFrom_demand_some ..),
          Step.runFrom_bind_of_ok (Step.runFrom_demand_some ..)]
        refine alike_bind_body
          (blind_check (Γ := ⟨registry, id, line, method.params⟩)
            (.ofReturn method.returnTy line) root) hst
          (fun s t hst => ⟨hst, hview⟩) ?_
        intro root s t hst
        refine ⟨hst.mono (by simp), ?_⟩
        simp [Feature.bare, Method.declared, hparams]

/-- The features of a class, in both passes. The second pass leaves the attributes as they are, so
after it all roots of the class are the same. -/
theorem blindBeside_checkClass (registry : Registry) (id : ClassId) :
    Step.BlindBeside (Checking.Alike registry) Class.bare (fun c => {root | root ∈ c.roots})
      (checkClass registry id) := by
  have hattributes : Step.BlindBeside (Checking.Alike registry) Feature.bare
      (fun f => {root | f.attribute?.bind Attribute.init = some root})
      (Feature.onAttribute (checkAttribute registry id)) :=
    Feature.blindBeside_onAttribute blindBeside_checkAttribute fun m => by simp [Feature.attribute?]
  have hmethods : Step.BlindBeside (Checking.Alike registry) Feature.bare
      (fun f => {root | f.method?.bind Method.body = some root})
      (Feature.onMethod (checkMethod registry id)) :=
    Feature.blindBeside_onMethod blindBeside_checkMethod fun a => by simp [Feature.method?]
  rintro known ⟨s, c⟩ ⟨t, d⟩ ⟨hst, hview⟩
  dsimp only at hst hview
  have hname : c.name = d.name := (Class.mk.inj hview).2.1
  rw [checkClass, classBy, Step.runFrom_bind_of_ok (Step.runFrom_modify ..),
    Step.runFrom_bind_of_ok (Step.runFrom_modify ..)]
  dsimp only
  rw [← hname]
  have hstart : Checking.Alike registry known { s with log := s.log.push (.bodyStarted c.name) }
      { t with log := t.log.push (.bodyStarted c.name) } :=
    ⟨hst.arena, rfl, congrArg (Array.push · (.bodyStarted c.name)) hst.log, hst.agrees⟩
  refine Lockstep.bind (Class.blindBeside_eachFeature hattributes known) (fun _ _ => ?_) _ _
    ⟨hstart, hview⟩
  rintro ⟨s, c⟩ ⟨t, d⟩ hst
  rcases (Class.blindBeside_eachFeature hmethods _ _ _ hst).cases with
    ⟨_, _, ⟨s', c'⟩, t', hs, ht, hst', hview'⟩ | ⟨_, s', t', hs, ht, hst'⟩
  · rw [hs, ht]
    refine ⟨hst'.mono ?_, hview'⟩
    -- the roots of the attributes are known from the first pass
    have hkept : c'.features.map Feature.attribute? = c.features.map Feature.attribute? := by
      rw [Class.runFrom_eachFeature] at hs
      obtain ⟨-, -, rfl⟩ := by simpa using hs
      exact Feature.map_attribute?_onMethod (checkMethod registry id) 0 c.features s
    rintro root (hroot | hroot)
    · obtain ⟨f, hf, hroot⟩ := List.mem_filterMap.mp hroot
      rcases f with m | a
      · exact .inl ⟨_, hf, hroot⟩
      · have hmem : some a ∈ c.features.map Feature.attribute? := by
          rw [← hkept]
          exact List.mem_map.mpr ⟨_, hf, rfl⟩
        obtain ⟨g, hg, hga⟩ := List.mem_map.mp hmem
        refine .inr (.inl ⟨g, hg, ?_⟩)
        rw [Set.mem_ofPred_eq, hga]
        exact hroot
    · exact .inr (.inr hroot)
  · rw [hs, ht]
    exact ⟨rfl, hst'⟩

end Analysis

/-! ### Phases -/

/-- The runs differ in annotations only, and the given nodes are the same in both. -/
structure Run.Alike (known : Set ExprId) (r r' : Run) : Prop where
  registry : r.registry = r'.registry
  log : r.log = r'.log
  program : r.program.bare = r'.program.bare
  agrees : ∃ same, known ⊆ same ∧ r.program.exprs.Agrees r.registry same r'.program.exprs

namespace Run.Alike

variable {known known' : Set ExprId} {r r' : Run}

theorem mono (h : Alike known r r') (hsubset : known' ⊆ known) : Alike known' r r' := by
  obtain ⟨same, hsame, hagrees⟩ := h.agrees
  exact ⟨h.registry, h.log, h.program, same, hsubset.trans hsame, hagrees⟩

theorem left (h : Alike known r r') : Alike ∅ r r' := h.mono (Set.empty_subset _)

theorem line (h : Alike known r r') : r.program.line = r'.program.line :=
  (Program.mk.inj h.program).1

theorem classes (h : Alike known r r') :
    r.program.classes.map Class.bare = r'.program.classes.map Class.bare :=
  (Program.mk.inj h.program).2.1

theorem exprs (h : Alike known r r') : r.program.exprs.bare = r'.program.exprs.bare :=
  (Program.mk.inj h.program).2.2.1

end Run.Alike

namespace Analysis

open Step (Lockstep)

variable {known : Set ExprId}

theorem lockstep_emit (event : Event) :
    Lockstep (Run.Alike ∅) (Run.Alike known) (emit event) (emit event) fun _ _ => Run.Alike known :=
  fun _ _ h => ⟨h.registry, congrArg (Array.push · event) h.log, h.program, h.agrees⟩

/-- As long as nothing is known of the nodes, it is enough to compare the declarations. -/
theorem alike_empty {r r' : Run} (hregistry : r.registry = r'.registry) (hlog : r.log = r'.log)
    (hprogram : r.program.bare = r'.program.bare) : Run.Alike ∅ r r' :=
  ⟨hregistry, hlog, hprogram, ∅, subset_rfl, .empty ..⟩

theorem lockstep_resolveHierarchy :
    Lockstep (Run.Alike ∅) (Run.Alike ∅) resolveHierarchy resolveHierarchy fun _ _ =>
      Run.Alike ∅ := by
  rintro ⟨p, registry, log⟩ ⟨p', registry', log'⟩ h
  obtain rfl : registry = registry' := h.registry
  obtain rfl : log = log' := h.log
  -- the hierarchy is built from names and parents
  have hbuild : Hierarchy.build p.classes = Hierarchy.build p'.classes := by
    refine Hierarchy.build_congr ?_
    have hcore := congrArg (List.map Class.core) h.classes
    simpa only [List.map_map, Function.comp_def, Class.core_bare] using hcore
  have hrun (r : Run) : resolveHierarchy.runFrom r =
      (((Hierarchy.build r.program.classes).runFrom ⟨r.registry, r.log⟩).1,
        ⟨r.program, ((Hierarchy.build r.program.classes).runFrom ⟨r.registry, r.log⟩).2.registry,
          ((Hierarchy.build r.program.classes).runFrom ⟨r.registry, r.log⟩).2.log⟩) := rfl
  rw [hrun, hrun]
  dsimp only
  rw [hbuild]
  generalize (Hierarchy.build p'.classes).runFrom ⟨registry, log⟩ = ran
  rcases ran with ⟨failure | ⟨⟩, s⟩
  · exact ⟨rfl, alike_empty rfl rfl h.program⟩
  · exact alike_empty rfl rfl h.program

/-- Recorded parents are annotations. -/
theorem map_bare_withParents (registry : Registry) (classes : List Class) :
    (withParents registry classes).map Class.bare = classes.map Class.bare := by
  refine List.ext_getElem? fun i => ?_
  simp only [withParents, List.getElem?_map, List.getElem?_mapIdx, Option.map_map]
  rfl

/-- A program is known, up to annotations, by its line, its classes and its expressions. -/
theorem bare_eq_of_parts {p q : Program} (hline : p.line = q.line)
    (hclasses : p.classes.map Class.bare = q.classes.map Class.bare)
    (hexprs : p.exprs.bare = q.exprs.bare) : p.bare = q.bare := by
  rw [Program.bare, Program.bare, hline, hclasses, hexprs]

theorem lockstep_recordParents :
    Lockstep (Run.Alike ∅) (Run.Alike ∅) recordParents recordParents fun _ _ => Run.Alike ∅ := by
  intro r r' h
  refine alike_empty h.registry h.log (bare_eq_of_parts h.line ?_ h.exprs)
  change (withParents r.registry r.program.classes).map Class.bare =
    (withParents r'.registry r'.program.classes).map Class.bare
  rw [map_bare_withParents, map_bare_withParents, h.classes]

theorem lockstep_resolveSignatures :
    Lockstep (Run.Alike ∅) (Run.Alike ∅) resolveSignatures resolveSignatures
      fun _ _ => Run.Alike ∅ := by
  rintro ⟨p, registry, log⟩ ⟨p', registry', log'⟩ h
  obtain rfl : registry = registry' := h.registry
  obtain rfl : log = log' := h.log
  rw [resolveSignatures, Step.runFrom_within, Step.runFrom_within]
  have heach := Step.BlindBeside.each
    (fun position => Signature.blindBeside_declareClass (classId position)) ∅
    (⟨registry, log⟩, p.classes) (⟨registry, log⟩, p'.classes) ⟨rfl, h.classes⟩
  rcases heach.cases with
    ⟨_, _, ⟨s, _⟩, _, hs, ht, rfl, hclasses⟩ | ⟨_, ⟨s, _⟩, _, hs, ht, rfl, hclasses⟩
  · rw [hs, ht]
    exact alike_empty rfl rfl (bare_eq_of_parts h.line hclasses h.exprs)
  · rw [hs, ht]
    exact ⟨rfl, alike_empty rfl rfl (bare_eq_of_parts h.line hclasses h.exprs)⟩

theorem lockstep_declare :
    Lockstep (Run.Alike ∅) (Run.Alike ∅) declare declare fun _ _ => Run.Alike ∅ := by
  refine .bind lockstep_resolveHierarchy fun _ _ => ?_
  refine .bind (lockstep_emit _) fun _ _ => ?_
  refine .bind lockstep_recordParents fun _ _ => ?_
  exact .bind lockstep_resolveSignatures fun _ _ => lockstep_emit _

theorem lockstep_checkBodies :
    Lockstep (Run.Alike ∅) (Run.Alike ∅) checkBodies checkBodies
      fun _ _ r r' => Run.Alike {root | ∃ c ∈ r.program.classes, root ∈ c.roots} r r' := by
  rintro ⟨p, registry, log⟩ ⟨p', registry', log'⟩ h
  obtain rfl : registry = registry' := h.registry
  obtain rfl : log = log' := h.log
  rw [checkBodies, bodiesBy, Step.runFrom_bind_of_ok (Step.runFrom_get _),
    Step.runFrom_bind_of_ok (Step.runFrom_get _), Step.runFrom_within, Step.runFrom_within]
  have heach := Step.BlindBeside.each
    (fun position => blindBeside_checkClass registry (classId position)) ∅
    (⟨p.exprs, log⟩, p.classes) (⟨p'.exprs, log⟩, p'.classes)
    ⟨⟨h.exprs, rfl, rfl, h.agrees⟩, h.classes⟩
  rcases heach.cases with
    ⟨_, _, ⟨s, _⟩, ⟨t, _⟩, hs, ht, hst, hclasses⟩ | ⟨_, ⟨s, _⟩, ⟨t, _⟩, hs, ht, hst, hclasses⟩
  · -- the roots are looked up in the classes behind the pass, where a cast may stand in a slot
    rw [hs, ht]
    obtain ⟨same, hsame, hagrees⟩ := hst.agrees
    exact ⟨rfl, hst.log, bare_eq_of_parts h.line hclasses hst.arena, same,
      Set.subset_union_left.trans hsame, hagrees⟩
  · rw [hs, ht]
    exact ⟨rfl, rfl, hst.log, bare_eq_of_parts h.line hclasses hst.arena, hst.agrees⟩

/-- A check of what is the same in both runs. -/
theorem lockstep_check {verdict : Run → Except Failure Unit} {next : Step Run Unit}
    {alike : Run → Run → Prop} {post : Unit → Unit → Run → Run → Prop}
    (hfailed : ∀ r r', alike r r' → Run.Alike ∅ r r')
    (hverdict : ∀ r r', alike r r' → verdict r = verdict r')
    (hnext : Lockstep (Run.Alike ∅) alike next next post) :
    Lockstep (Run.Alike ∅) alike (do let r ← get; Step.ofExcept (verdict r); next)
      (do let r ← get; Step.ofExcept (verdict r); next) post := by
  intro r r' h
  rw [Step.runFrom_bind_of_ok (Step.runFrom_get _), Step.runFrom_bind_of_ok (Step.runFrom_get _),
    hverdict r r' h]
  cases verdict r' with
  | error failure => exact ⟨rfl, hfailed r r' h⟩
  | ok => exact hnext r r' h

theorem lockstep_run :
    Lockstep (Run.Alike ∅) (Run.Alike ∅) run run
      fun _ _ r r' => Run.Alike {root | ∃ c ∈ r.program.classes, root ∈ c.roots} r r' := by
  refine .bind lockstep_declare fun _ _ => ?_
  refine lockstep_check (fun _ _ h => h) (fun _ _ h => by rw [h.registry]) ?_
  refine .bind (lockstep_emit _) fun _ _ => ?_
  refine .bind lockstep_checkBodies fun _ _ => ?_
  have hemit (event : Event) : Lockstep (Run.Alike ∅)
      (fun r r' => Run.Alike {root | ∃ c ∈ r.program.classes, root ∈ c.roots} r r') (emit event)
      (emit event) fun _ _ r r' =>
        Run.Alike {root | ∃ c ∈ r.program.classes, root ∈ c.roots} r r' :=
    fun r r' h => lockstep_emit event r r' h
  refine .bind (hemit _) fun _ _ => ?_
  exact lockstep_check (fun _ _ h => h.left) (fun _ _ h => by rw [h.registry, h.line]) (hemit _)

end Analysis

/-- **Annotations of the input have no influence.** Two programs that differ in annotations only are
accepted or rejected alike, for the same reason at the same line, and what the analysis makes of
them differs in annotations only. If they are accepted, every node that is reached from a class,
though not through a cast to an unknown type, is the same in both, with its annotations. -/
theorem Program.analyse_of_bare_eq {p q : Program} (h : p.bare = q.bare) :
    p.analyse.result = q.analyse.result ∧ p.analyse.program.bare = q.analyse.program.bare ∧
      ∀ registry, p.analyse.result = .ok registry →
        ∀ c ∈ p.analyse.program.classes, ∀ root ∈ c.roots, ∀ id,
          p.analyse.program.exprs.Reachable registry root id →
            p.analyse.program.exprs.get? id = q.analyse.program.exprs.get? id := by
  have hstart : Run.Alike ∅ (Analysis.start p) (Analysis.start q) := Analysis.alike_empty rfl rfl h
  rcases (Analysis.lockstep_run _ _ hstart).cases with
    ⟨_, _, r, r', hr, hr', halike⟩ | ⟨failure, r, r', hr, hr', halike⟩
  · rw [analyse_eq hr, analyse_eq hr']
    refine ⟨congrArg Except.ok halike.registry, halike.program, ?_⟩
    intro registry hok c hc root hroot id hid
    obtain rfl : r.registry = registry := Except.ok.inj hok
    obtain ⟨same, hsame, hagrees⟩ := halike.agrees
    exact hagrees.get?_eq id (hagrees.mem_of_reachable (hsame ⟨c, hc, hroot⟩) hid)
  · rw [analyse_eq hr, analyse_eq hr']
    exact ⟨rfl, halike.program, nofun⟩

/-- A text that is set to a number, and a cast to an unknown type. A type may be recorded for each
node and for the attribute. -/
def Program.marked (type : Option TypeName) : Program where
  line := 1
  classes := [
    { line := 1, name := "Main", parent := none, recordedParent := none
      features := [
        .attribute ⟨2, "note", "String", some ⟨0⟩, type, none⟩,
        .method (.declared 3 "main" [] "void" (some ⟨3⟩))] }]
  exprs := ⟨#[
    ⟨2, .intConstant 7, type⟩,
    ⟨4, .intConstant 1, type⟩,
    ⟨4, .cast "Ghost" ⟨1⟩, type⟩,
    ⟨3, .block [⟨2⟩], type⟩]⟩
  builtins := []

/-- The cast is the same, with and without types on the nodes of the input. What stands below it is
not looked at and keeps what is recorded for it. -/
theorem Program.analyse_of_bare_eq_marked :
    (marked none).bare = (marked (some .noValue)).bare ∧
      (marked none).analyse.result = (marked (some .noValue)).analyse.result ∧
      (marked none).analyse.program.bare = (marked (some .noValue)).analyse.program.bare ∧
      (marked none).analyse.result.toBool ∧
      (marked none).analyse.program.exprs.get? ⟨2⟩ =
        (marked (some .noValue)).analyse.program.exprs.get? ⟨2⟩ ∧
      (marked none).analyse.program.exprs.get? ⟨1⟩ ≠
        (marked (some .noValue)).analyse.program.exprs.get? ⟨1⟩ := by
  have hbare : (marked none).bare = (marked (some .noValue)).bare := by decide +kernel
  have haccepted : (marked none).analyse.result.toBool := by decide +kernel
  obtain ⟨registry, hok⟩ := exists_of_toBool haccepted
  obtain ⟨hresult, hprogram, hnodes⟩ := analyse_of_bare_eq hbare
  obtain ⟨c, hc, hroot⟩ : ∃ c ∈ (marked none).analyse.program.classes, ⟨3⟩ ∈ c.roots := by
    decide +kernel
  have hblock : (marked none).analyse.program.exprs.get? ⟨3⟩ =
      some ⟨3, .block [⟨2⟩], some .noValue⟩ := by decide +kernel
  have hcast := hnodes registry hok c hc ⟨3⟩ hroot ⟨2⟩
    (.part .root hblock (by simp [Form.children]) nofun)
  exact ⟨hbare, hresult, hprogram, haccepted, hcast, by decide +kernel⟩

end Lcpl
