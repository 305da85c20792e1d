import Lcpl.Proofs.Analysis.Features
import Lcpl.Proofs.Tree.Forest

/-!
# The phases of an analysis

A run of the analysis is put together from its phases. If the references of a program pass their
check, the roots of its features are trees when the check of the bodies begins.

## Main definitions

* `Program.LastPhase` — the phases in which an analysis may end

## Main results

* `Program.lastPhase` — the outcome of an analysis, by the phase in which it ends
* `Analysis.raw_of_readable`, `Analysis.raw_of_checkForest` — every feature is ready for its check
* `Program.checked_of_analyse` — in an accepted program, every feature is checked
-/

namespace Lcpl

variable {ι : Type}

/-! ### Outcomes -/

namespace Analysis

variable {p : Program} {r : Run} {failure : Failure}

theorem runFrom_run_of_cycle (h : declare.runFrom (start p) = (.ok (), r))
    (hcycle : r.registry.checkCycles = .error failure) :
    run.runFrom (start p) = (.error failure, r) := by
  rw [run, runBy, Step.runFrom_bind_of_ok h, Step.runFrom_bind_of_ok (Step.runFrom_get _), hcycle,
    Step.runFrom_bind_of_error (Step.runFrom_ofExcept _ _)]

theorem runFrom_checkBodies {result : Except Failure Unit} {s : Checking} {classes : List Class}
    (h : Step.eachFrom (fun k => checkClass r.registry (classId k)) 0 r.program.classes
      ⟨r.program.exprs, r.log⟩ = (result, s, classes)) :
    checkBodies.runFrom r =
      (result, ⟨{ r.program with classes, exprs := s.arena }, r.registry, s.log⟩) := by
  rw [checkBodies, bodiesBy, Step.runFrom_bind_of_ok (Step.runFrom_get _), Step.runFrom_within,
    Step.runFrom_each, h]

theorem runFrom_run_of_bodies {result : Except Failure Unit} {s : Checking} {classes : List Class}
    (h : declare.runFrom (start p) = (.ok (), r)) (hcycle : r.registry.checkCycles = .ok ())
    (hbodies : Step.eachFrom (fun k => checkClass r.registry (classId k)) 0 r.program.classes
      ⟨r.program.exprs, r.log.push .hierarchyAcyclic⟩ = (result, s, classes)) :
    ∃ log, run.runFrom (start p) = (result.bind fun _ => r.registry.checkEntry r.program.line,
      ⟨{ r.program with classes, exprs := s.arena }, r.registry, log⟩) := by
  have hrun := runFrom_checkBodies (r := { r with log := r.log.push .hierarchyAcyclic }) hbodies
  rw [run, runBy, Step.runFrom_bind_of_ok h, Step.runFrom_bind_of_ok (Step.runFrom_get _), hcycle,
    Step.runFrom_bind_of_ok (Step.runFrom_ofExcept _ _), emit,
    Step.runFrom_bind_of_ok (Step.runFrom_modify _ _)]
  cases result with
  | error failure => exact ⟨s.log, Step.runFrom_bind_of_error hrun⟩
  | ok =>
    rw [Step.runFrom_bind_of_ok hrun, emit, Step.runFrom_bind_of_ok (Step.runFrom_modify _ _),
      Step.runFrom_bind_of_ok (Step.runFrom_get _)]
    dsimp only [Except.bind]
    cases hentry : r.registry.checkEntry r.program.line with
    | error failure =>
      exact ⟨_, Step.runFrom_bind_of_error (Step.runFrom_ofExcept _ _)⟩
    | ok => exact ⟨_, (Step.runFrom_bind_of_ok (Step.runFrom_ofExcept _ _)).trans rfl⟩

end Analysis

namespace Program

variable {p : Program} {registry : Registry}

/-- The handle of a node that was there before the analysis. -/
def original? (p : Program) (id : ExprId) : Option ExprId :=
  if id.index < p.exprs.size then some id else none

theorem analyse_eq {r : Run} {result : Except Failure Unit}
    (h : Analysis.run.runFrom (Analysis.start p) = (result, r)) :
    p.analyse = ⟨result.map fun _ => r.registry, r.program, r.log⟩ := by
  rw [analyse, analyseBy, h]

theorem declarations_of_declare {r : Run}
    (h : Analysis.declare.runFrom (Analysis.start p) = (.ok (), r)) :
    p.declarations = .ok r.registry := by
  rw [declarations, h]
  rfl

variable (p) in
/-- The phase in which an analysis ends, with what it leaves. -/
inductive LastPhase : Prop where
  /-- A declaration is rejected. -/
  | declarations {failure r}
      (hdeclare : Analysis.declare.runFrom (Analysis.start p) = (.error failure, r))
      (hr : p.Redeclares r.program) (h : p.analyse = ⟨.error failure, r.program, r.log⟩)
  /-- The hierarchy has a cycle. -/
  | hierarchy {failure r} (hdeclare : Analysis.declare.runFrom (Analysis.start p) = (.ok (), r))
      (hr : p.Redeclares r.program) (hcycle : r.registry.checkCycles = .error failure)
      (h : p.analyse = ⟨.error failure, r.program, r.log⟩)
  /-- The bodies are checked. If they are accepted, the entry point is looked for. -/
  | bodies {result r s classes log}
      (hdeclare : Analysis.declare.runFrom (Analysis.start p) = (.ok (), r))
      (hr : p.Redeclares r.program) (hcycle : r.registry.checkCycles = .ok ())
      (hbodies : Step.eachFrom (fun k => Analysis.checkClass r.registry (Analysis.classId k)) 0
        r.program.classes ⟨p.exprs, r.log.push .hierarchyAcyclic⟩ = (result, s, classes))
      (h : p.analyse = ⟨(result.bind fun _ => r.registry.checkEntry p.line).map fun _ => r.registry,
        { r.program with classes, exprs := s.arena }, log⟩)

variable (p) in
/-- Every analysis ends in one of its phases. -/
theorem lastPhase : p.LastPhase := by
  have hr := Analysis.redeclares_declare p
  rcases hdeclare : Analysis.declare.runFrom (Analysis.start p) with ⟨failure | ⟨⟩, r⟩
  · rw [hdeclare] at hr
    have hrun : Analysis.run.runFrom (Analysis.start p) = (.error failure, r) := by
      rw [Analysis.run, Analysis.runBy, Step.runFrom_bind_of_error hdeclare]
    exact .declarations hdeclare hr (analyse_eq hrun)
  · rw [hdeclare] at hr
    cases hcycle : r.registry.checkCycles with
    | error failure =>
      exact .hierarchy hdeclare hr hcycle
        (analyse_eq (Analysis.runFrom_run_of_cycle hdeclare hcycle))
    | ok =>
      rcases hbodies : Step.eachFrom
          (fun k => Analysis.checkClass r.registry (Analysis.classId k)) 0 r.program.classes
          ⟨r.program.exprs, r.log.push .hierarchyAcyclic⟩ with ⟨result, s, classes⟩
      obtain ⟨log, hrun⟩ := Analysis.runFrom_run_of_bodies hdeclare hcycle hbodies
      rw [show r.program.line = p.line from hr.line] at hrun
      rw [show r.program.exprs = p.exprs from hr.exprs] at hbodies
      exact .bodies hdeclare hr hcycle hbodies (analyse_eq hrun)

/-- Where the last phase ends well, the entry point is there, and the registry is the one
returned. -/
theorem checkEntry_of_map_eq_ok {result : Registry} {line : Line}
    (h : (registry.checkEntry line).map (fun _ => registry) = .ok result) :
    registry.checkEntry line = .ok () ∧ registry = result := by
  cases hentry : registry.checkEntry line with
  | error failure =>
    rw [hentry] at h
    cases h
  | ok =>
    rw [hentry] at h
    exact ⟨rfl, Except.ok.inj h⟩

/-- An analysis that ends well has ended every phase well. -/
theorem exists_of_analyse_ok (h : p.analyse.result = .ok registry) :
    ∃ r s classes, Analysis.declare.runFrom (Analysis.start p) = (.ok (), r) ∧
      r.registry = registry ∧
      Step.eachFrom (fun k => Analysis.checkClass registry (Analysis.classId k)) 0 r.program.classes
        ⟨p.exprs, r.log.push .hierarchyAcyclic⟩ = (.ok (), s, classes) ∧
      p.analyse.program = { r.program with classes, exprs := s.arena } := by
  cases p.lastPhase with
  | declarations _ _ houtcome =>
    rw [houtcome] at h
    cases h
  | hierarchy _ _ _ houtcome =>
    rw [houtcome] at h
    cases h
  | @bodies result r s classes log hdeclare hr hcycle hbodies houtcome =>
    rw [houtcome] at h ⊢
    cases result with
    | error failure => cases h
    | ok =>
      obtain ⟨-, rfl⟩ := checkEntry_of_map_eq_ok h
      exact ⟨r, s, classes, hdeclare, rfl, hbodies, rfl⟩

end Program

/-! ### In front of the bodies -/

theorem Naming.holds_map {κ κ' : Type} (N : Naming) (f : κ → κ') (form : Form κ) :
    N.Holds (form.map f) ↔ N.Holds form := by
  cases form <;> rfl

/-- What is known of the names in every node of an arena is known of the terms in it. -/
theorem Arena.Reads.named {a : Arena} {mark : ExprId → ι} {N : ι → Naming} {id : ExprId}
    {t : Term ι} {ids : List ExprId} (h : a.Reads mark id t ids)
    (hN : ∀ id node, a.get? id = some node → (N (mark id)).Holds node.expr) : t.Named N := by
  induction t using Term.induction generalizing id ids with
  | node m line form type ih =>
    cases h with
    | node form hget hparts =>
      refine .node ?_ fun part hpart => ?_
      · exact (Naming.holds_map ..).mpr ((Naming.holds_map ..).mp (hN id _ hget))
      · obtain ⟨⟨child, t⟩, hmem, rfl⟩ := List.mem_map.mp (Form.children_map _ form ▸ hpart)
        obtain ⟨own, hread, -⟩ := hparts.exists_of_mem hmem
        exact ih t hpart hread

namespace Bodies

variable {b : Bodies ι} {a : Arena} {ids : List ExprId}

theorem features_raw {id : ClassId} {features : List Feature}
    (hknown : ∀ f ∈ features, b.Known id a f)
    (hN : ∀ id node, a.get? id = some node → (b.naming (b.mark id)).Holds node.expr)
    (h : Jointly (a.Readable b.mark) (features.filterMap Feature.root) ids) (k : Nat) :
    EachFrom (fun _ => b.Raw id) a k features ids := by
  induction features generalizing ids k with
  | nil =>
    obtain rfl := Jointly.nil_iff.mp h
    exact .nil
  | cons f features ih =>
    have hf := hknown f List.mem_cons_self
    have hrest := fun g hg => hknown g (List.mem_cons_of_mem f hg)
    cases hroot : f.root with
    | none =>
      rw [List.filterMap_cons_none hroot] at h
      have hraw : b.Raw id a f [] := ⟨hf, .inl ⟨hroot, rfl⟩⟩
      exact .cons hraw (ih hrest h (k + 1))
    | some root =>
      rw [List.filterMap_cons_some hroot] at h
      obtain ⟨front, rest, rfl, ⟨t, ht⟩, h⟩ := Jointly.cons_iff.mp h
      exact .cons ⟨hf, .inr ⟨root, t, hroot, ht, ht.named hN⟩⟩ (ih hrest h (k + 1))

/-- Where the roots of all classes read as terms, and the registry knows every feature, all is ready
for the check. -/
theorem classes_raw {classes : List Class} {k : Nat}
    (hknown : ∀ i c, classes[i]? = some c → ∀ f ∈ c.features,
      b.Known (Analysis.classId (k + i)) a f)
    (hN : ∀ id node, a.get? id = some node → (b.naming (b.mark id)).Holds node.expr)
    (h : Jointly (a.Readable b.mark) (classes.flatMap Class.roots) ids) :
    EachFrom (fun k => Features (b.Raw (Analysis.classId k))) a k classes ids := by
  induction classes generalizing k ids with
  | nil =>
    obtain rfl := Jointly.nil_iff.mp h
    exact .nil
  | cons c classes ih =>
    rw [List.flatMap_cons] at h
    obtain ⟨front, rest, rfl, hc, h⟩ := Jointly.append_iff.mp h
    refine .cons (features_raw (hknown 0 c rfl) hN hc 0) (ih (fun i d hd => ?_) h)
    rw [show k + 1 + i = k + (i + 1) by omega]
    exact hknown (i + 1) d hd

end Bodies

theorem Class.roots_bare (c : Class) : c.bare.roots = c.roots := by
  rw [roots, bare, List.filterMap_map, roots]
  congr 1
  funext f
  rcases f with m | a <;> rfl

/-- The roots do not depend on annotations. -/
theorem Class.flatMap_roots_eq {classes classes' : List Class}
    (h : classes.map Class.bare = classes'.map Class.bare) :
    classes.flatMap Class.roots = classes'.flatMap Class.roots := by
  have hroots (classes : List Class) :
      classes.flatMap Class.roots = (classes.map Class.bare).flatMap Class.roots := by
    rw [List.flatMap_map]
    exact List.flatMap_congr fun c _ => (roots_bare c).symm
  rw [hroots, h, ← hroots]

namespace Analysis

variable {p : Program} {r : Run} {failure : Failure}

/-- After the declarations every feature is ready for its check, with the nodes below its root. -/
theorem raw_of_readable (b : Bodies ι) {ids : List ExprId}
    (hids : Jointly (p.exprs.Readable b.mark) (p.classes.flatMap Class.roots) ids)
    (h : declare.runFrom (start p) = (.ok (), r)) (hregistry : b.registry = r.registry)
    (hsize : b.size = p.exprs.size)
    (hN : ∀ id node, p.exprs.get? id = some node → (b.naming (b.mark id)).Holds node.expr) :
    EachFrom (fun k => Bodies.Features (b.Raw (classId k))) p.exprs 0 r.program.classes ids := by
  obtain ⟨-, hdeclares⟩ := declares_of_declare h
  have hbare := (redeclares_declare p).classes
  rw [h] at hbare
  rw [← Class.flatMap_roots_eq hbare] at hids
  refine Bodies.classes_raw (fun i c hc f hf => ?_) hN hids
  obtain ⟨hname, hfeatures⟩ := hdeclares i c hc
  rw [Nat.zero_add]
  exact ⟨⟨c.name, hregistry ▸ hname⟩, hregistry ▸ hfeatures f hf, hsize.le⟩

theorem raw_of_checkForest (b : Bodies ι) (hforest : p.checkForest = .ok ())
    (h : declare.runFrom (start p) = (.ok (), r)) (hregistry : b.registry = r.registry)
    (hsize : b.size = p.exprs.size)
    (hN : ∀ id node, p.exprs.get? id = some node → (b.naming (b.mark id)).Holds node.expr) :
    ∃ ids, EachFrom (fun k => Bodies.Features (b.Raw (classId k))) p.exprs 0 r.program.classes ids ∧
      ids.Nodup := by
  obtain ⟨ids, hids, hnodup⟩ := Program.exists_reads_of_checkForest b.mark hforest
  exact ⟨ids, raw_of_readable b hids h hregistry hsize hN, hnodup⟩

end Analysis

/-! ### Behind the bodies -/

theorem EachFrom.exists_of_getElem? {α : Type} {P : Nat → Owned α} {a : Arena} {k i : Nat} {x : α}
    {xs : List α} {ids : List ExprId} (h : EachFrom P a k xs ids) (hx : xs[i]? = some x) :
    ∃ own, P (k + i) a x own ∧ own.Sublist ids := by
  induction h generalizing i with
  | nil => simp at hx
  | @cons k y xs own rest head tail ih =>
    cases i with
    | zero =>
      obtain rfl : y = x := by simpa using hx
      exact ⟨own, head, List.sublist_append_left ..⟩
    | succ i =>
      rw [show k + (i + 1) = k + 1 + i by omega]
      obtain ⟨own', hx, hsub⟩ := ih (by simpa using hx)
      exact ⟨own', hx, hsub.trans (List.sublist_append_right ..)⟩

/-- In an accepted program every feature is checked. -/
theorem Program.checked_of_analyse {p : Program} {registry : Registry}
    (hforest : p.checkForest = .ok ()) (h : p.analyse.result = .ok registry) (N : ι → Naming)
    (made : ι) (mark : ExprId → ι) (hmade : (N made).made)
    (hmark : ∀ x : ExprId, p.exprs.size ≤ x.index → mark x = made)
    (hN : ∀ id node, p.exprs.get? id = some node → (N (mark id)).Holds node.expr) :
    ∃ b : Bodies ι, b.registry = registry ∧ b.naming = N ∧ b.mark = mark ∧
      ∀ i c, p.analyse.program.classes[i]? = some c → ∀ f ∈ c.features,
        ∃ ids, b.Checked (Analysis.classId i) p.analyse.program.exprs f ids := by
  obtain ⟨r, s, classes, hdeclare, rfl, hbodies, hprogram⟩ := exists_of_analyse_ok h
  let b : Bodies ι := ⟨r.registry, N, made, mark, p.exprs.size,
    (Analysis.declares_of_declare hdeclare).1, hmade, hmark⟩
  refine ⟨b, rfl, rfl, rfl, fun i c hc f hf => ?_⟩
  obtain ⟨ids, hraw, hnodup⟩ := Analysis.raw_of_checkForest b hforest hdeclare rfl rfl hN
  obtain ⟨a, classes', ids', log', -, ⟨hrun, hchecked⟩ | ⟨failure, hrun, -⟩⟩ :=
    Bodies.keeps_checkClasses hraw hnodup (r.log.push .hierarchyAcyclic)
  · obtain ⟨rfl, rfl⟩ := by simpa using hbodies.symm.trans hrun
    rw [hprogram] at hc ⊢
    obtain ⟨own, hclass, -⟩ := hchecked.exists_of_getElem? hc
    obtain ⟨j, hj⟩ := List.mem_iff_getElem?.mp hf
    rw [Nat.zero_add] at hclass
    obtain ⟨ids, hf, -⟩ := EachFrom.exists_of_getElem? hclass hj
    exact ⟨ids, hf⟩
  · cases hbodies.symm.trans hrun

end Lcpl
