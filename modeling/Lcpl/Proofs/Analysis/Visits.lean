import Lcpl.Proofs.Analysis.Growth
import Lcpl.Proofs.Preserves

/-!
# The nodes that an analysis goes into

An analysis reports each node that a check goes into. The phases in front of the bodies go into
none, and the check of the bodies goes into the trees below the roots of the features, which have no
node together. So whichever way an analysis ends, it has gone into each node of the program once at
most, and into none of those that it has made.

## Main definitions

* `Resolving.Visited`, `Run.Visited` — the nodes that checks have gone into

## Main results

* `Analysis.visits_declare` — the phases in front of the bodies go into no node
* `Program.visits_analyse` — an analysis goes into each node once at most, and into no new one
-/

namespace Lcpl

variable {α : Type} {visited : List ExprId}

/-! ### The phases in front of the bodies -/

theorem Event.visits_push_of_none {event : Event} (h : event.visited? = none) (log : Array Event) :
    visits (log.push event) = visits log := by
  rw [visits_push, h, Option.toList_none, List.append_nil]

/-- The nodes that checks went into while the registry was built. -/
def Resolving.Visited (visited : List ExprId) (s : Resolving) : Prop :=
  Event.visits s.log = visited

namespace Hierarchy

theorem keeps_registerFrom (k : Nat) (classes : List Class) :
    Step.Keeps (Resolving.Visited visited) (registerFrom k classes) := by
  induction classes generalizing k with
  | nil => exact .pure ()
  | cons c classes ih =>
    intro s hs
    cases hadd : s.registry.add? (.declared c.name c.line (.declared k) c.parent) with
    | none =>
      rw [runFrom_registerFrom_of_none hadd]
      exact ⟨trivial, hs⟩
    | some registry =>
      rw [runFrom_registerFrom_of_some hadd]
      exact ih (k + 1) { s with registry } hs

theorem keeps_linkParent (id : ClassId) :
    Step.Keeps (Resolving.Visited visited) (linkParent id) := by
  intro s hs
  cases hc : s.registry.class? id with
  | none =>
    rw [runFrom_linkParent_of_none hc]
    exact ⟨trivial, hs⟩
  | some c =>
    cases hparent : declaredParent s.registry c with
    | error failure =>
      rw [runFrom_linkParent_of_error hc hparent]
      exact ⟨trivial, hs⟩
    | ok parent =>
      rw [runFrom_linkParent_of_ok hc hparent]
      exact hs

theorem keeps_build (classes : List Class) :
    Step.Keeps (Resolving.Visited visited) (build classes) := by
  refine .bind (.bind (keeps_registerFrom 0 classes) fun _ => .modify fun s hs => ?_) fun _ => ?_
  · exact (Event.visits_push_of_none rfl s.log).trans hs
  · refine .bind .get fun s => .forM ?_
    rintro ⟨id, position⟩ -
    exact keeps_linkParent id

end Hierarchy

namespace Signature

theorem keeps_annotate (declaration : α) :
    Step.Keeps (Step.Beside (Resolving.Visited visited) fun _ => True) (annotate declaration) :=
  .modify fun _ ht => ht

theorem keeps_emit {event : Event} (h : event.visited? = none) :
    Step.Keeps (Step.Beside (α := α) (Resolving.Visited visited) fun _ => True) (emit event) :=
  .modify fun t ht => ⟨(Event.visits_push_of_none h t.1.log).trans ht.1, trivial⟩

theorem keeps_onClass {β : Type} (id : ClassId) (operation : StateM ClassDef β) :
    Step.Keeps (Step.Beside (α := α) (Resolving.Visited visited) fun _ => True)
      (onClass id operation) := by
  intro t ht
  exact ht

theorem keeps_declareMethod (id : ClassId) :
    Step.Keeps (Step.Beside (Resolving.Visited visited) fun _ => True) (declareMethod id) := by
  refine .bind .get fun t => ?_
  obtain ⟨⟨registry, log⟩, m⟩ := t
  refine .bind (.demand trivial _) fun c => ?_
  dsimp only
  split
  · exact .bind_reject trivial _
  · refine .bind (keeps_annotate _) fun _ => .bind (.ofExcept fun _ _ => trivial) fun defs => ?_
    have hregister (method : MethodDef) :
        Step.Keeps (Step.Beside (α := Method) (Resolving.Visited visited) fun _ => True) (do
          emit (.methodResolved c.name m.name)
          let added ← onClass id (ClassDef.addMethod method)
          if added ≠ some true then
            Step.fault (.missingFeature id m.name)) := by
      refine .bind (keeps_emit rfl) fun _ => .bind (keeps_onClass id _) fun _ => ?_
      split
      · exact .fault trivial
      · exact .pure ()
    split
    · exact .bind (keeps_annotate _) fun _ => hregister _
    · exact .bind (keeps_emit rfl) fun _ => hregister _

theorem keeps_declareAttribute (id : ClassId) :
    Step.Keeps (Step.Beside (Resolving.Visited visited) fun _ => True) (declareAttribute id) := by
  refine .bind .get fun t => ?_
  obtain ⟨⟨registry, log⟩, a⟩ := t
  refine .bind (.ofExcept fun _ _ => trivial) fun ty => .bind (keeps_annotate _) fun _ => ?_
  refine .bind (.demand trivial _) fun c => .bind (keeps_onClass id _) fun _ => ?_
  split
  · exact .reject trivial
  · exact .pure ()

theorem keeps_declareClass (id : ClassId) :
    Step.Keeps (Step.Beside (Resolving.Visited visited) fun _ => True) (declareClass id) := by
  have hmethods : Step.Keeps (Step.Beside (Resolving.Visited visited) fun _ => True)
      (Feature.onMethod (declareMethod id)) := (keeps_declareMethod id).onMethod
  have hattributes : Step.Keeps (Step.Beside (Resolving.Visited visited) fun _ => True)
      (Feature.onAttribute (declareAttribute id)) := (keeps_declareAttribute id).onAttribute
  exact (hmethods.eachFeature.bind fun _ => hattributes.eachFeature).any fun _ _ _ => trivial

end Signature

/-- The nodes that checks went into during a run. -/
def Run.Visited (visited : List ExprId) (r : Run) : Prop := Event.visits r.log = visited

namespace Analysis

theorem keeps_emit {event : Event} (h : event.visited? = none) :
    Step.Keeps (Run.Visited visited) (emit event) :=
  .modify fun r hr => (Event.visits_push_of_none h r.log).trans hr

theorem keeps_resolveHierarchy : Step.Keeps (Run.Visited visited) resolveHierarchy :=
  .bind .get fun r => .within (Hierarchy.keeps_build r.program.classes) (fun _ hr => hr)
    fun _ _ _ hs => hs

theorem keeps_resolveSignatures : Step.Keeps (Run.Visited visited) resolveSignatures :=
  .within (.each fun k => Signature.keeps_declareClass (classId k))
    (fun _ hr => ⟨hr, fun _ _ => trivial⟩) fun _ _ _ hs => hs.1

theorem keeps_declare : Step.Keeps (Run.Visited visited) declare := by
  refine .bind keeps_resolveHierarchy fun _ => .bind (keeps_emit rfl) fun _ => ?_
  refine .bind (.modify fun _ hr => hr) fun _ => .bind keeps_resolveSignatures fun _ => ?_
  exact keeps_emit rfl

/-- The phases in front of the bodies go into no node. -/
theorem visits_declare (p : Program) : Event.visits (declare.runFrom (start p)).2.log = [] :=
  keeps_declare.final (s := start p) rfl

/-- Behind the declarations, only the check of the bodies goes into nodes. -/
theorem visits_run {p : Program} {r : Run} {result : Except Failure Unit} {s : Checking}
    {classes : List Class} (h : declare.runFrom (start p) = (.ok (), r))
    (hcycle : r.registry.checkCycles = .ok ())
    (hbodies : Step.eachFrom (fun k => checkClass r.registry (classId k)) 0 r.program.classes
      ⟨r.program.exprs, r.log.push .hierarchyAcyclic⟩ = (result, s, classes)) :
    Event.visits (run.runFrom (start p)).2.log = Event.visits s.log := by
  have hrun := runFrom_checkBodies (r := { r with log := r.log.push .hierarchyAcyclic }) hbodies
  rw [run, runBy, Step.runFrom_bind_of_ok h, Step.runFrom_bind_of_ok (Step.runFrom_get _), hcycle,
    Step.runFrom_bind_of_ok (Step.runFrom_ofExcept _ _), emit,
    Step.runFrom_bind_of_ok (Step.runFrom_modify _ _)]
  cases result with
  | error failure => rw [Step.runFrom_bind_of_error hrun]
  | ok =>
    rw [Step.runFrom_bind_of_ok hrun]
    -- what is left reports the end of phases
    have hend : Step.Keeps (Run.Visited (Event.visits s.log)) (do
        emit .bodiesChecked
        let run ← get
        Step.ofExcept (run.registry.checkEntry run.program.line)
        emit .entryFound) := by
      refine .bind (keeps_emit rfl) fun _ => .bind .get fun _ => ?_
      exact .bind (.ofExcept fun _ _ => trivial) fun _ => keeps_emit rfl
    exact hend.final rfl

end Analysis

namespace Program

variable {p : Program}

/-- Whichever way an analysis ends, it has gone into each node once at most, and into no node that
was not there before. -/
theorem visits_analyse (hforest : p.checkForest = .ok ()) :
    (Event.visits p.analyse.log).Nodup ∧
      ∀ id ∈ Event.visits p.analyse.log, id.index < p.exprs.size := by
  have hdeclared := Analysis.visits_declare p
  have hnone (h : Event.visits p.analyse.log = []) : (Event.visits p.analyse.log).Nodup ∧
      ∀ id ∈ Event.visits p.analyse.log, id.index < p.exprs.size := by
    rw [h]
    exact ⟨.nil, by simp⟩
  cases p.lastPhase with
  | declarations hdeclare _ h =>
    rw [hdeclare] at hdeclared
    exact hnone (by rw [h]; exact hdeclared)
  | hierarchy hdeclare _ _ h =>
    rw [hdeclare] at hdeclared
    exact hnone (by rw [h]; exact hdeclared)
  | @bodies result r s classes log hdeclare hr hcycle hbodies h =>
    rw [hdeclare] at hdeclared
    obtain ⟨v, hstart, -, hown, hat⟩ := exists_ledger hforest hr r.registry
      (r.log.push .hierarchyAcyclic)
    obtain ⟨seen, hseen, hsub⟩ := (hat.left_of_checkClasses hown hbodies).visits
    -- the phases in front of the bodies go into no node
    have hbegin : Event.visits v.start.log = [] := by
      rw [hstart]
      exact (Event.visits_push_of_none rfl r.log).trans hdeclared
    have hvisits : Event.visits p.analyse.log = seen := by
      rw [← hr.exprs] at hbodies
      rw [hbegin, List.nil_append] at hseen
      exact (Analysis.visits_run hdeclare hcycle hbodies).trans hseen
    rw [hvisits]
    constructor
    · obtain ⟨part, hperm, hpart⟩ := hsub
      exact hperm.nodup_iff.mp (v.nodup.sublist hpart)
    · intro id hid
      have hlt := v.lt_size id (hsub.subset hid)
      rwa [hstart] at hlt

end Program

end Lcpl
