import Lcpl.Proofs.Analysis.Progress
import Lcpl.Proofs.Analysis.Table
import Lcpl.Proofs.Registry.Cycles

/-!
# The course of an analysis

An analysis ends in one of three ways. It fails before the bodies are checked, and then no node has
been touched; it is stopped in the check of a feature; or it finishes every feature, and then looks
for the entry point.

## Main definitions

* `Class.signed` — what the check of the bodies does not change of a class
* `Class.core` — what no phase of an analysis changes of a class
* `Program.Prepares` — the features of a program, as the check of the bodies finds them
* `Program.Course` — the ways in which an analysis ends

## Main results

* `Program.map_core_analyse` — an analysis keeps the core of every class
* `Program.course` — how an analysis ends, for a program whose expressions form trees
-/

namespace Lcpl

variable {ι : Type}

/-! ### What stays -/

/-- A method without its root. -/
def Method.signed (m : Method) : Method := { m with body := none }

/-- An attribute without its root, and without the receiver that is recorded for it. -/
def Attribute.signed (a : Attribute) : Attribute := { a with init := none, recordedSelf := none }

/-- A feature without what the check of its root may change. -/
def Feature.signed : Feature → Feature
  | .method m => .method m.signed
  | .attribute a => .attribute a.signed

/-- A class without what the check of its features may change. -/
def Class.signed (c : Class) : Class := { c with features := c.features.map Feature.signed }

/-- A feature without annotations and without its root. -/
def Feature.core : Feature → Feature
  | .method m => .method (.declared m.line m.name (m.params.map Param.bare) m.returnType none)
  | .attribute a => .attribute (.declared a.line a.name a.typeName none)

/-- A class without annotations, and without the roots of its features. -/
def Class.core (c : Class) : Class :=
  { c with features := c.features.map Feature.core, recordedParent := none }

theorem Feature.core_bare (f : Feature) : f.bare.core = f.core := by
  rcases f with m | a
  · simp [bare, core, Method.declared, Param.bare, Param.declared, Function.comp_def]
  · rfl

theorem Feature.core_signed (f : Feature) : f.signed.core = f.core := by
  rcases f with m | a <;> rfl

theorem Class.core_bare (c : Class) : c.bare.core = c.core := by
  simp [bare, core, Function.comp_def, Feature.core_bare]

theorem Class.core_signed (c : Class) : c.signed.core = c.core := by
  simp [signed, core, Function.comp_def, Feature.core_signed]

theorem Class.map_core_of_signed {classes classes' : List Class}
    (h : classes.map Class.signed = classes'.map Class.signed) :
    classes.map Class.core = classes'.map Class.core := by
  have hcore (classes : List Class) :
      classes.map Class.core = (classes.map Class.signed).map Class.core := by
    simp [Function.comp_def, core_signed]
  rw [hcore, h, ← hcore]

theorem Class.map_core_of_bare {classes classes' : List Class}
    (h : classes.map Class.bare = classes'.map Class.bare) :
    classes.map Class.core = classes'.map Class.core := by
  have hcore (classes : List Class) :
      classes.map Class.core = (classes.map Class.bare).map Class.core := by
    simp [Function.comp_def, core_bare]
  rw [hcore, h, ← hcore]

namespace Analysis

variable (registry : Registry) (id : ClassId)

/-- The check of a body leaves the declaration to its caller. -/
theorem runFrom_body_snd {α β : Type} (step : Body β) (s : Checking) (x : α) :
    ((body step).runFrom (s, x)).2.2 = x := rfl

theorem signed_checkAttribute (s : Checking) (a : Attribute) :
    ((checkAttribute registry id).runFrom (s, a)).2.2.signed = a.signed := by
  obtain ⟨line, name, typeName, init, recordedType, recordedSelf⟩ := a
  rw [checkAttribute, attributeBy, Step.runFrom_bind_of_ok (Step.runFrom_get _)]
  dsimp only
  cases registry.checkRedefinition id name with
  | error failure => rw [Step.runFrom_bind_of_error (Step.runFrom_ofExcept _ _)]
  | ok =>
    rw [Step.runFrom_bind_of_ok (Step.runFrom_ofExcept _ _)]
    cases init with
    | none => rfl
    | some init =>
      dsimp only
      cases registry.ownAttribute? id name with
      | none => rw [Step.runFrom_bind_of_error (Step.runFrom_demand_none _ _)]
      | some attr =>
        rw [Step.runFrom_bind_of_ok (Step.runFrom_demand_some _ _ _)]
        cases registry.name? id with
        | none => rw [Step.runFrom_bind_of_error (Step.runFrom_demand_none _ _)]
        | some className =>
          rw [Step.runFrom_bind_of_ok (Step.runFrom_demand_some _ _ _),
            Step.runFrom_bind_of_ok (Step.runFrom_modify _ _)]
          -- whatever the check of the initial value does, it does not see the declaration
          generalize Expectation.checkBy Body.checkExpr ⟨registry, id, line, []⟩ init
            (.initial attr.ty line) = step
          have hsame := runFrom_body_snd step s
            (Attribute.mk line name typeName (some init) recordedType
              (some (.receiver line className)))
          rcases hrun : (body step).runFrom
              (s, Attribute.mk line name typeName (some init) recordedType
                (some (.receiver line className))) with ⟨failure | root, after⟩
          · rw [hrun] at hsame
            rw [Step.runFrom_bind_of_error hrun, hsame]
            rfl
          · rw [Step.runFrom_bind_of_ok hrun]
            rfl

theorem signed_checkMethod (s : Checking) (m : Method) :
    ((checkMethod registry id).runFrom (s, m)).2.2.signed = m.signed := by
  rw [checkMethod, methodBy, Step.runFrom_bind_of_ok (Step.runFrom_get _)]
  dsimp only
  cases registry.checkOverride id m.name with
  | error failure => rfl
  | ok =>
    rw [Step.runFrom_bind_of_ok (Step.runFrom_ofExcept _ _)]
    cases m.body with
    | none => rfl
    | some root =>
      cases registry.ownMethod? id m.name with
      | none => rfl
      | some method =>
        dsimp only
        rw [Step.runFrom_bind_of_ok (Step.runFrom_demand_some _ _ _), Step.runFrom_bind]
        generalize Expectation.checkBy Body.checkExpr ⟨registry, id, m.line, method.params⟩ root
          (.ofReturn method.returnTy m.line) = step
        have hsame := runFrom_body_snd step s m
        split
        · rfl
        · next failure after hrun =>
          rw [hrun] at hsame
          rw [hsame]

theorem signed_eachFeature {step : Step (Checking × Feature) Unit}
    (hstep : ∀ s f, (step.runFrom (s, f)).2.2.signed = f.signed) (s : Checking) (c : Class) :
    ((Class.eachFeature step).runFrom (s, c)).2.2.signed = c.signed := by
  have hfeatures := Step.map_eachFrom Feature.signed (fun _ => hstep) 0 s c.features
  rw [Class.runFrom_eachFeature, Class.signed, Class.signed]
  dsimp only
  rw [hfeatures]

theorem signed_onAttribute (s : Checking) (f : Feature) :
    ((Feature.onAttribute (checkAttribute registry id)).runFrom (s, f)).2.2.signed = f.signed := by
  rcases f with m | a
  · rfl
  · exact congrArg Feature.attribute (signed_checkAttribute registry id s a)

theorem signed_onMethod (s : Checking) (f : Feature) :
    ((Feature.onMethod (checkMethod registry id)).runFrom (s, f)).2.2.signed = f.signed := by
  rcases f with m | a
  · exact congrArg Feature.method (signed_checkMethod registry id s m)
  · rfl

theorem signed_checkClass (s : Checking) (c : Class) :
    ((checkClass registry id).runFrom (s, c)).2.2.signed = c.signed := by
  rw [checkClass, classBy, Step.runFrom_bind_of_ok (Step.runFrom_modify _ _), Step.runFrom_bind]
  have hattributes := signed_eachFeature (signed_onAttribute registry id)
    { s with log := s.log.push (.bodyStarted c.name) } c
  split
  · next after hrun =>
    rw [hrun] at hattributes
    rw [signed_eachFeature (signed_onMethod registry id)]
    exact hattributes
  · next failure after hrun =>
    rw [hrun] at hattributes
    exact hattributes

theorem map_signed_checkClasses {s s' : Checking} {classes classes' : List Class}
    {result : Except Failure Unit}
    (h : Step.eachFrom (fun k => checkClass registry (classId k)) 0 classes s =
      (result, s', classes')) :
    classes'.map Class.signed = classes.map Class.signed := by
  have hsigned :=
    Step.map_eachFrom Class.signed (fun k => signed_checkClass registry (classId k)) 0 s
    classes
  rwa [h] at hsigned

end Analysis

/-! ### The features in front of the check -/

/-- Items at different positions own different nodes. -/
theorem EachFrom.exists_disjoint {α : Type} {P : Nat → Owned α} {a : Arena} {k i j : Nat} {x y : α}
    {xs : List α} {ids : List ExprId} (h : EachFrom P a k xs ids) (hnodup : ids.Nodup)
    (hx : xs[i]? = some x) (hy : xs[j]? = some y) (hne : i ≠ j) :
    ∃ own own', P (k + i) a x own ∧ P (k + j) a y own' ∧ own.Disjoint own' := by
  induction h generalizing i j with
  | nil => simp at hx
  | @cons k z xs own rest head tail ih =>
    obtain ⟨-, hrest, hdisjoint⟩ := List.nodup_append'.mp hnodup
    -- the first item is one of the two, or both stand behind it
    cases i with
    | zero =>
      cases j with
      | zero => exact absurd rfl hne
      | succ j =>
        obtain rfl : z = x := by simpa using hx
        obtain ⟨own', hown', hsub⟩ :=
          tail.exists_of_getElem? (show xs[j]? = some y by simpa using hy)
        rw [show k + 1 + j = k + (j + 1) by omega] at hown'
        exact ⟨own, own', head, hown', fun u hu hu' => hdisjoint hu (hsub.subset hu')⟩
    | succ i =>
      cases j with
      | zero =>
        obtain rfl : z = y := by simpa using hy
        obtain ⟨own', hown', hsub⟩ :=
          tail.exists_of_getElem? (show xs[i]? = some x by simpa using hx)
        rw [show k + 1 + i = k + (i + 1) by omega] at hown'
        exact ⟨own', own, hown', head, fun u hu hu' => hdisjoint hu' (hsub.subset hu)⟩
      | succ j =>
        rw [show k + (i + 1) = k + 1 + i by omega, show k + (j + 1) = k + 1 + j by omega]
        exact ih hrest (by simpa using hx) (by simpa using hy) (by omega)

namespace Bodies

variable {b : Bodies ι} {a : Arena} {classes : List Class} {ids : List ExprId} {i j i' j' : Nat}
variable {f f' : Feature}

theorem exists_raw (h : EachFrom (fun k => Features (b.Raw (Analysis.classId k))) a 0 classes ids)
    (hf : featureAt? classes i j = some f) :
    ∃ own, b.Raw (Analysis.classId i) a f own ∧ own.Sublist ids := by
  obtain ⟨c, hc, hf⟩ := Option.bind_eq_some_iff.mp hf
  obtain ⟨classOwn, hclass, hsub⟩ := h.exists_of_getElem? hc
  obtain ⟨own, hraw, hsub'⟩ := EachFrom.exists_of_getElem? hclass hf
  rw [Nat.zero_add] at hraw
  exact ⟨own, hraw, hsub'.trans hsub⟩

theorem exists_raw_disjoint
    (h : EachFrom (fun k => Features (b.Raw (Analysis.classId k))) a 0 classes ids)
    (hnodup : ids.Nodup) (hf : featureAt? classes i j = some f)
    (hf' : featureAt? classes i' j' = some f') (hne : ¬ (i = i' ∧ j = j')) :
    ∃ own own', b.Raw (Analysis.classId i) a f own ∧ b.Raw (Analysis.classId i') a f' own' ∧
      own.Disjoint own' := by
  obtain ⟨c, hc, hf⟩ := Option.bind_eq_some_iff.mp hf
  obtain ⟨c', hc', hf'⟩ := Option.bind_eq_some_iff.mp hf'
  by_cases hi : i = i'
  · -- two features of one class
    subst hi
    obtain rfl := Option.some_inj.mp (hc.symm.trans hc')
    obtain ⟨classOwn, hclass, hsub⟩ := h.exists_of_getElem? hc
    obtain ⟨own, own', hraw, hraw', hdisjoint⟩ := EachFrom.exists_disjoint hclass
      (hnodup.sublist hsub) hf hf' fun hj => hne ⟨rfl, hj⟩
    rw [Nat.zero_add] at hraw hraw'
    exact ⟨own, own', hraw, hraw', hdisjoint⟩
  · obtain ⟨classOwn, classOwn', hclass, hclass', hdisjoint⟩ := h.exists_disjoint hnodup hc hc' hi
    obtain ⟨own, hraw, hsub⟩ := EachFrom.exists_of_getElem? hclass hf
    obtain ⟨own', hraw', hsub'⟩ := EachFrom.exists_of_getElem? hclass' hf'
    rw [Nat.zero_add] at hraw hraw'
    exact ⟨own, own', hraw, hraw', fun u hu hu' => hdisjoint (hsub.subset hu) (hsub'.subset hu')⟩

theorem Raw.mem_of_below {id : ClassId} (h : b.Raw id a f ids) {root x : ExprId}
    (hroot : f.root = some root) (hx : a.Below root x) : x ∈ ids := by
  rcases h.rooted with ⟨hnone, -⟩ | ⟨root', t, hroot', hread, -⟩
  · rw [hroot] at hnone
    cases hnone
  · obtain rfl := Option.some_inj.mp (hroot'.symm.trans hroot)
    exact hread.mem_of_below hx

end Bodies

/-- The features of classes that are ready for their check. -/
def Agenda.ofRaw (b : Bodies ι) (classes : List Class) (base : Arena) (hsize : b.size = base.size)
    (hunder : b.registry.UnderObject) {ids : List ExprId}
    (h : EachFrom (fun k => Bodies.Features (b.Raw (Analysis.classId k))) base 0 classes ids)
    (hnodup : ids.Nodup) : Agenda ι where
  toBodies := b
  classes := classes
  base := base
  size_eq := hsize
  underObject := hunder
  raw hf := by
    obtain ⟨own, hraw, hsub⟩ := Bodies.exists_raw h hf
    exact ⟨own, hraw, hnodup.sublist hsub⟩
  apart hf hf' hne hroot hroot' x hx hx' := by
    obtain ⟨own, own', hraw, hraw', hdisjoint⟩ := Bodies.exists_raw_disjoint h hnodup hf hf' hne
    exact hdisjoint (hraw.mem_of_below hroot hx) (hraw'.mem_of_below hroot' hx')

/-! ### How an analysis ends -/

namespace Program

/-- Whichever way an analysis ends, it has changed annotations and roots only. -/
theorem map_core_analyse (p : Program) :
    p.analyse.program.classes.map Class.core = p.classes.map Class.core := by
  cases p.lastPhase with
  | declarations _ hr h =>
    rw [h]
    exact Class.map_core_of_bare hr.classes
  | hierarchy _ hr _ h =>
    rw [h]
    exact Class.map_core_of_bare hr.classes
  | @bodies result r s classes log _ hr _ hbodies h =>
    rw [h]
    exact (Class.map_core_of_signed (Analysis.map_signed_checkClasses _ hbodies)).trans
      (Class.map_core_of_bare hr.classes)

variable (p : Program)

/-- The agenda holds the features of the program, as the check of the bodies finds them. Its marks
are the handles of the nodes that were there before the analysis. -/
structure Prepares (w : Agenda (Option ExprId)) : Prop where
  base : w.base = p.exprs
  mark : w.mark = p.original?
  made : w.made = none
  declarations : p.declarations = .ok w.registry
  acyclic : w.registry.checkCycles = .ok ()
  classes : w.classes.map Class.bare = p.classes.map Class.bare

/-- The ways in which an analysis ends. -/
inductive Course : Prop where
  /-- It fails before the bodies are checked. -/
  | early (failure : Failure)
      (hcause : p.declarations = .error failure ∨
        ∃ registry, p.declarations = .ok registry ∧ registry.checkCycles = .error failure)
      (hresult : p.analyse.result = .error failure) (hexprs : p.analyse.program.exprs = p.exprs)
      (hclasses : p.analyse.program.classes.map Class.bare = p.classes.map Class.bare)
  /-- It is stopped in the check of a feature. -/
  | halted (failure : Failure) (w : Agenda (Option ExprId)) (hw : p.Prepares w)
      (hresult : p.analyse.result = .error failure)
      (h : w.Halted failure (featureAt? p.analyse.program.classes) p.analyse.program.exprs)
  /-- It finishes every feature, and looks for the entry point. -/
  | finished (w : Agenda (Option ExprId)) (hw : p.Prepares w)
      (hresult : p.analyse.result = (w.registry.checkEntry p.line).map fun _ => w.registry)
      (h : w.Progress (fun _ => True) (fun _ => False) (featureAt? p.analyse.program.classes)
        p.analyse.program.exprs)

variable {p}

/-- Where the declarations are accepted and form no cycle, every class descends from `Object`. -/
theorem underObject_of_declarations {registry : Registry} (h : p.declarations = .ok registry)
    (hcycle : registry.checkCycles = .ok ()) : registry.UnderObject := by
  obtain ⟨hdeclared, rfl⟩ := declarations_eq_ok_iff.mp h
  exact hdeclared.rooted.underObject (Registry.checkCycles_eq_ok_iff.mp hcycle)

/-- Every analysis of a program whose expressions form trees ends in one of these ways. -/
theorem course (hforest : p.checkForest = .ok ()) : p.Course := by
  cases p.lastPhase with
  | @declarations failure r hdeclare hr h =>
    refine .early failure (.inl ?_) ?_ ?_ ?_
    · rw [declarations, hdeclare]
      rfl
    · rw [h]
    · rw [h, hr.exprs]
    · rw [h, hr.classes]
  | @hierarchy failure r hdeclare hr hcycle h =>
    refine .early failure (.inr ⟨r.registry, declarations_of_declare hdeclare, hcycle⟩) ?_ ?_ ?_
    · rw [h]
    · rw [h, hr.exprs]
    · rw [h, hr.classes]
  | @bodies result r s classes log hdeclare hr hcycle hbodies h =>
    have hdeclarations := declarations_of_declare hdeclare
    have hunder := underObject_of_declarations hdeclarations hcycle
    -- nothing is asked of the names: a mark says which node it was, if it was there before
    let b : Bodies (Option ExprId) := ⟨r.registry, fun _ => .any, none, p.original?, p.exprs.size,
      (Analysis.declares_of_declare hdeclare).1, trivial, fun x hx => if_neg (Nat.not_lt.mpr hx)⟩
    obtain ⟨ids, hraw, hnodup⟩ := Analysis.raw_of_checkForest b hforest hdeclare rfl rfl
      fun _ node _ => Naming.holds_any node.expr
    let w : Agenda (Option ExprId) := .ofRaw b r.program.classes p.exprs rfl hunder hraw hnodup
    have hw : p.Prepares w := ⟨rfl, rfl, rfl, hdeclarations, hcycle, hr.classes⟩
    have hprogress := w.progress_checkClasses (r.log.push .hierarchyAcyclic)
    have hchecked : Step.eachFrom (fun k => Analysis.checkClass w.registry (Analysis.classId k)) 0
        w.classes ⟨w.base, r.log.push .hierarchyAcyclic⟩ = (result, s, classes) := hbodies
    rw [hchecked] at hprogress
    cases result with
    | error failure =>
      refine .halted failure w hw ?_ ?_
      · rw [h]
        rfl
      · rw [h]
        exact hprogress
    | ok =>
      refine .finished w hw ?_ ?_
      · rw [h]
        rfl
      · rw [h]
        exact hprogress

/-- Whichever way an analysis ends, it has annotated the nodes of the program. -/
theorem exists_annotates_analyse (hforest : p.checkForest = .ok ()) :
    ∃ registry W, p.exprs.Annotates registry W p.analyse.program.exprs := by
  cases course hforest with
  | early _ _ _ hexprs _ =>
    rw [hexprs]
    exact ⟨p.table, fun _ _ => True, .refl ..⟩
  | halted _ w hw _ h =>
    obtain ⟨_, _, _, _, -, -, -, hprogress⟩ := h
    exact ⟨w.registry, _, hw.base ▸ hprogress.annotates⟩
  | finished w hw _ h => exact ⟨w.registry, _, hw.base ▸ h.annotates⟩

end Program

end Lcpl
