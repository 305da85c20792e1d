import Lcpl.Proofs.Analysis.Domain
import Lcpl.Proofs.Analysis.Visits
import Lcpl.Proofs.Body.Levels
import Lcpl.Proofs.Tree.Worklist

/-!
# An analysis with a bound on its depth

The check of an expression goes down level by level. The phases take it as an argument, so they can
also be run with one that may go down a given number of levels only. As many levels as the program
has nodes are enough: the analysis is the same with this bound, result, annotations and log alike.

## Main definitions

* `Program.analyseWithin` — an analysis that goes no deeper than a number of levels
* `Ledger.Agrees` — two steps that do the same to an item whose roots wait

## Main results

* `Program.analyseWithin_eq` — as many levels as there are nodes are enough
* `Program.walks_end` — both walks over a program end, and see each node once at most
-/

namespace Lcpl

/-- Analyses a program, and goes no deeper into any body than a number of levels. -/
def Program.analyseWithin (levels : Nat) (p : Program) : Outcome :=
  p.analyseBy fun Γ => Body.checkBelow Γ levels

/-! ### Runs that agree -/

/-- Two sequences agree if their parts do, from where the runs arrive. -/
theorem Step.runFrom_bind_congr {σ α β : Type} {first first' : Step σ α} {next next' : α → Step σ β}
    {s : σ} (hfirst : first'.runFrom s = first.runFrom s)
    (hnext : ∀ a s', first.runFrom s = (.ok a, s') → (next' a).runFrom s' = (next a).runFrom s') :
    (first' >>= next').runFrom s = (first >>= next).runFrom s := by
  rcases hrun : first.runFrom s with ⟨failure | a, s'⟩
  · rw [runFrom_bind_of_error hrun, runFrom_bind_of_error (hfirst.trans hrun)]
  · rw [runFrom_bind_of_ok hrun, runFrom_bind_of_ok (hfirst.trans hrun), hnext a s' hrun]

variable {check check' : Context → ExprId → Body Ty}

theorem Expectation.runFrom_checkBy_congr {Γ : Context} {root : ExprId} {s : Session}
    (e : Expectation) (h : (check' Γ root).runFrom s = (check Γ root).runFrom s) :
    (e.checkBy check' Γ root).runFrom s = (e.checkBy check Γ root).runFrom s := by
  cases e with
  | anything => exact Step.runFrom_bind_congr h fun _ _ _ => rfl
  | initial ty site => exact Step.runFrom_bind_congr h fun _ _ _ => rfl
  | returned ty line => exact Step.runFrom_bind_congr h fun _ _ _ => rfl

namespace Feature

variable {registry : Registry} {id : ClassId} {s : Checking}

theorem runFrom_body_congr {α β : Type} {step step' : Body β} (x : α)
    (h : step'.runFrom s.session = step.runFrom s.session) :
    (Analysis.body step').runFrom (s, x) = (Analysis.body step).runFrom (s, x) := by
  rw [Analysis.body, Analysis.body, Step.runFrom_within, Step.runFrom_within]
  dsimp only
  rw [show step'.runFrom ⟨s.arena, .empty, s.log⟩ = _ from h]
  rfl

/-- Two checks of a method agree if the checks of its root do. -/
theorem runFrom_methodBy_congr {m : Method}
    (h : ∀ root Γ e, m.body = some root → (Feature.method m).setting? registry id = some (Γ, e) →
      (check' Γ root).runFrom s.session = (check Γ root).runFrom s.session) :
    (Analysis.methodBy check' registry id).runFrom (s, m) =
      (Analysis.methodBy check registry id).runFrom (s, m) := by
  rw [Analysis.methodBy, Analysis.methodBy, Step.runFrom_bind_of_ok (Step.runFrom_get _),
    Step.runFrom_bind_of_ok (Step.runFrom_get _)]
  dsimp only
  cases registry.checkOverride id m.name with
  | error failure =>
    rw [Step.runFrom_bind_of_error (Step.runFrom_ofExcept _ _),
      Step.runFrom_bind_of_error (Step.runFrom_ofExcept _ _)]
  | ok =>
    rw [Step.runFrom_bind_of_ok (Step.runFrom_ofExcept _ _),
      Step.runFrom_bind_of_ok (Step.runFrom_ofExcept _ _)]
    cases hbody : m.body with
    | none => dsimp only
    | some root =>
      dsimp only
      cases hmethod : registry.ownMethod? id m.name with
      | none =>
        rw [Step.runFrom_bind_of_error (Step.runFrom_demand_none _ _),
          Step.runFrom_bind_of_error (Step.runFrom_demand_none _ _)]
      | some method =>
        have hroot := h root _ _ hbody (by rw [setting?, hmethod]; rfl)
        rw [Step.runFrom_bind_of_ok (Step.runFrom_demand_some _ _ _),
          Step.runFrom_bind_of_ok (Step.runFrom_demand_some _ _ _)]
        exact Step.runFrom_bind_congr
          (runFrom_body_congr m (Expectation.runFrom_checkBy_congr _ hroot)) fun _ _ _ => rfl

/-- Two checks of an attribute agree if the checks of its root do. -/
theorem runFrom_attributeBy_congr {a : Attribute}
    (h : ∀ root Γ e, a.init = some root → (Feature.attribute a).setting? registry id = some (Γ, e) →
      (check' Γ root).runFrom s.session = (check Γ root).runFrom s.session) :
    (Analysis.attributeBy check' registry id).runFrom (s, a) =
      (Analysis.attributeBy check registry id).runFrom (s, a) := by
  rw [Analysis.attributeBy, Analysis.attributeBy, Step.runFrom_bind_of_ok (Step.runFrom_get _),
    Step.runFrom_bind_of_ok (Step.runFrom_get _)]
  dsimp only
  cases registry.checkRedefinition id a.name with
  | error failure =>
    rw [Step.runFrom_bind_of_error (Step.runFrom_ofExcept _ _),
      Step.runFrom_bind_of_error (Step.runFrom_ofExcept _ _)]
  | ok =>
    rw [Step.runFrom_bind_of_ok (Step.runFrom_ofExcept _ _),
      Step.runFrom_bind_of_ok (Step.runFrom_ofExcept _ _)]
    cases hinit : a.init with
    | none => dsimp only
    | some root =>
      dsimp only
      cases hattr : registry.ownAttribute? id a.name with
      | none =>
        rw [Step.runFrom_bind_of_error (Step.runFrom_demand_none _ _),
          Step.runFrom_bind_of_error (Step.runFrom_demand_none _ _)]
      | some attr =>
        have hroot := h root _ _ hinit (by rw [setting?, hattr]; rfl)
        rw [Step.runFrom_bind_of_ok (Step.runFrom_demand_some _ _ _),
          Step.runFrom_bind_of_ok (Step.runFrom_demand_some _ _ _)]
        -- the name of the class is looked up in front of the body, which changes nothing
        refine Step.runFrom_bind_congr rfl fun className t hname => ?_
        obtain rfl : t = (s, a) := by
          cases hclass : registry.name? id with
          | none => rw [hclass] at hname; cases hname
          | some name => rw [hclass] at hname; exact (congrArg Prod.snd hname).symm
        rw [Step.runFrom_bind_of_ok (Step.runFrom_modify _ _),
          Step.runFrom_bind_of_ok (Step.runFrom_modify _ _)]
        exact Step.runFrom_bind_congr
          (runFrom_body_congr _ (Expectation.runFrom_checkBy_congr _ hroot)) fun _ _ _ => rfl

end Feature

/-- Two runs agree if their checks of the bodies do. -/
theorem Analysis.runFrom_runBy_congr {p : Program}
    (h : ∀ r, declare.runFrom (start p) = (.ok (), r) →
      (bodiesBy check').runFrom { r with log := r.log.push .hierarchyAcyclic } =
        (bodiesBy check).runFrom { r with log := r.log.push .hierarchyAcyclic }) :
    (runBy check').runFrom (start p) = (runBy check).runFrom (start p) := by
  refine Step.runFrom_bind_congr rfl fun _ r hdeclare => ?_
  rw [Step.runFrom_bind_of_ok (Step.runFrom_get r), Step.runFrom_bind_of_ok (Step.runFrom_get r)]
  cases r.registry.checkCycles with
  | error failure =>
    rw [Step.runFrom_bind_of_error (Step.runFrom_ofExcept ..),
      Step.runFrom_bind_of_error (Step.runFrom_ofExcept ..)]
  | ok =>
    rw [Step.runFrom_bind_of_ok (Step.runFrom_ofExcept ..),
      Step.runFrom_bind_of_ok (Step.runFrom_ofExcept ..), emit,
      Step.runFrom_bind_of_ok (Step.runFrom_modify ..),
      Step.runFrom_bind_of_ok (Step.runFrom_modify ..)]
    exact Step.runFrom_bind_congr (h r hdeclare) fun _ _ _ => rfl

namespace Body.Ledger

variable {α : Type} {registry : Registry} {v : Ledger registry}

/-- From wherever the roots of an item wait in front of all others, the two steps do the same to
it. -/
def Agrees (v : Ledger registry) (roots : α → List ExprId) (step step' : Step (Checking × α) Unit) :
    Prop :=
  ∀ s x pending, v.At (roots x ++ pending) 0 (Checking.session s) →
    step'.runFrom (s, x) = step.runFrom (s, x)

theorem Agrees.eachFrom {roots : α → List ExprId} {step step' : Nat → Step (Checking × α) Unit}
    (hchecks : ∀ k, v.Checks roots (step k)) (h : ∀ k, v.Agrees roots (step k) (step' k)) (k : Nat)
    (s : Checking) (xs : List α) {pending : List ExprId}
    (hat : v.At (xs.flatMap roots ++ pending) 0 s.session) :
    Step.eachFrom step' k xs s = Step.eachFrom step k xs s := by
  induction xs generalizing k s with
  | nil => rfl
  | cons x xs ih =>
    rw [List.flatMap_cons, List.append_assoc] at hat
    have hsame := h k s x _ hat
    have hafter := hchecks k s x _ hat
    rcases hrun : (step k).runFrom (s, x) with ⟨failure | ⟨⟩, s', x'⟩
    · rw [Step.eachFrom_cons_of_error hrun, Step.eachFrom_cons_of_error (hsame.trans hrun)]
    · rw [hrun] at hafter
      rw [Step.eachFrom_cons_of_ok hrun, Step.eachFrom_cons_of_ok (hsame.trans hrun),
        ih (k + 1) s' hafter]

theorem Agrees.eachFeature {root? : Feature → Option ExprId}
    {step step' : Step (Checking × Feature) Unit}
    (hchecks : v.Checks (fun f => (root? f).toList) step)
    (h : v.Agrees (fun f => (root? f).toList) step step') :
    v.Agrees (fun c => c.features.filterMap root?) (Class.eachFeature step)
      (Class.eachFeature step') := by
  intro s c pending hat
  dsimp only at hat
  rw [List.filterMap_eq_flatMap_toList] at hat
  rw [Class.runFrom_eachFeature, Class.runFrom_eachFeature,
    Agrees.eachFrom (fun _ => hchecks) (fun _ => h) 0 s c.features hat]

variable {levels : Nat}

/-- The check of a root that waits needs no more levels than there are nodes. -/
theorem At.runFrom_checkBelow {Γ : Context} {root : ExprId} {pending : List ExprId} {s : Checking}
    (h : v.At (root :: pending) 0 s.session) (hown : v.own = v.start.arena.Readable fun _ => ())
    (hlevels : v.start.arena.size ≤ levels) (hΓ : Γ.Sound) :
    (checkBelow Γ levels root).runFrom s.session = (checkExpr Γ root).runFrom s.session := by
  obtain ⟨done, own, rest, n, hids, hroot, -, -, -, hnodup, hwaits⟩ := h.exists_split_cons
  rw [hown] at hroot
  obtain ⟨t, hread⟩ := hroot
  have hlength : own.length ≤ levels := (Arena.length_le_size hnodup hread.lt_size).trans hlevels
  exact runFrom_checkBelow_eq hΓ Context.soundScopes_empty (hread.of_get? hwaits) hnodup hlength

section

variable (hown : v.own = v.start.arena.Readable fun _ => ())
variable (hlevels : v.start.arena.size ≤ levels) (hr : registry.Coherent)
include hown hlevels hr

theorem agrees_onAttribute (id : ClassId) :
    v.Agrees (fun f => f.initial?.toList)
      (Feature.onAttribute (Analysis.checkAttribute registry id))
      (Feature.onAttribute
        (Analysis.attributeBy (fun Γ => checkBelow Γ levels) registry id)) := by
  rintro s (m | a) pending hat
  · rw [Feature.runFrom_onAttribute_method, Feature.runFrom_onAttribute_method]
  · have hsame : (Analysis.attributeBy (fun Γ => checkBelow Γ levels) registry id).runFrom (s, a) =
        (Analysis.checkAttribute registry id).runFrom (s, a) := by
      refine Feature.runFrom_attributeBy_congr fun root Γ e hroot hsetting => ?_
      obtain ⟨name, hname⟩ := Feature.exists_name?_of_setting? hsetting
      have hwaits : v.At (root :: pending) 0 s.session := by
        simpa [Feature.initial?, Feature.attribute?, hroot] using hat
      exact hwaits.runFrom_checkBelow hown hlevels (Feature.sound_setting hr hname hsetting).1
    rw [Feature.runFrom_onAttribute, Feature.runFrom_onAttribute, hsame]

theorem agrees_onMethod (id : ClassId) :
    v.Agrees (fun f => f.body?.toList) (Feature.onMethod (Analysis.checkMethod registry id))
      (Feature.onMethod (Analysis.methodBy (fun Γ => checkBelow Γ levels) registry id)) := by
  rintro s (m | a) pending hat
  · have hsame : (Analysis.methodBy (fun Γ => checkBelow Γ levels) registry id).runFrom (s, m) =
        (Analysis.checkMethod registry id).runFrom (s, m) := by
      refine Feature.runFrom_methodBy_congr fun root Γ e hroot hsetting => ?_
      obtain ⟨name, hname⟩ := Feature.exists_name?_of_setting? hsetting
      have hwaits : v.At (root :: pending) 0 s.session := by
        simpa [Feature.body?, Feature.method?, hroot] using hat
      exact hwaits.runFrom_checkBelow hown hlevels (Feature.sound_setting hr hname hsetting).1
    rw [Feature.runFrom_onMethod, Feature.runFrom_onMethod, hsame]
  · rw [Feature.runFrom_onMethod_attribute, Feature.runFrom_onMethod_attribute]

theorem agrees_checkClass (id : ClassId) :
    v.Agrees Class.agenda (Analysis.checkClass registry id)
      (Analysis.classBy (fun Γ => checkBelow Γ levels) registry id) := by
  intro s c pending hat
  rw [Class.agenda, List.append_assoc] at hat
  have hstarted := hat.bodyStarted c.name
  have hinitials :=
    (agrees_onAttribute hown hlevels hr id).eachFeature (checks_onAttribute hown id) _ c _
    hstarted
  have hbodies := (agrees_onMethod hown hlevels hr id).eachFeature (checks_onMethod hown id)
  rw [Analysis.checkClass, Analysis.classBy, Analysis.classBy,
    Step.runFrom_bind_of_ok (Step.runFrom_modify ..),
    Step.runFrom_bind_of_ok (Step.runFrom_modify ..)]
  refine Step.runFrom_bind_congr hinitials fun _ t hrun => ?_
  obtain ⟨s', c'⟩ := t
  exact hbodies s' c' pending (hstarted.of_initials hown hrun)

end

end Body.Ledger

namespace Program

variable {p : Program} {levels : Nat}

/-- As many levels as the program has nodes are enough. -/
theorem analyseWithin_eq (hforest : p.checkForest = .ok ()) (hlevels : p.exprs.size ≤ levels) :
    p.analyseWithin levels = p.analyse := by
  have hbodies {r : Run} (hdeclare : Analysis.declare.runFrom (Analysis.start p) = (.ok (), r)) :
      (Analysis.bodiesBy fun Γ => Body.checkBelow Γ levels).runFrom
          { r with log := r.log.push .hierarchyAcyclic } =
        Analysis.checkBodies.runFrom { r with log := r.log.push .hierarchyAcyclic } := by
    have hr := Analysis.redeclares_declare p
    rw [hdeclare] at hr
    obtain ⟨v, hstart, -, hown, hat⟩ := exists_ledger hforest hr r.registry
      (r.log.push .hierarchyAcyclic)
    rw [← List.append_nil (r.program.classes.flatMap Class.agenda)] at hat
    -- a tree in the arena has no more levels than the arena has nodes
    have hsize : v.start.arena.size ≤ levels := by rwa [hstart]
    have hcoherent := (Analysis.declares_of_declare hdeclare).1
    have hsame := Body.Ledger.Agrees.eachFrom
      (fun k => Body.Ledger.checks_checkClass hown (Analysis.classId k))
      (fun k => Body.Ledger.agrees_checkClass hown hsize hcoherent (Analysis.classId k)) 0 _ _ hat
    rw [← show r.program.exprs = p.exprs from hr.exprs] at hsame
    rw [Analysis.checkBodies, Analysis.bodiesBy, Analysis.bodiesBy,
      Step.runFrom_bind_of_ok (Step.runFrom_get _), Step.runFrom_bind_of_ok (Step.runFrom_get _),
      Step.runFrom_within, Step.runFrom_within,
      Step.runFrom_each, Step.runFrom_each, hsame]
  rw [analyseWithin, analyse, analyseBy, analyseBy, Analysis.runFrom_runBy_congr fun r => hbodies]

/-- Both walks over a program end. The one over its references ends for every program whose slots
lead to nodes, and sees a new node each time round; if a slot leads to none, this is reported before
it begins. The check of the bodies behind it ends too. It goes into each node once at most, into no
node that it has made, and no deeper than there are nodes. -/
theorem walks_end (p : Program) :
    ((∃ slot, p.FirstDangling slot ∧ p.checkForest = .error (.dangling slot)) ∨
      ∃ n w, Worklist.Ends p.exprs n p.worklist w ∧ n ≤ p.exprs.size ∧ w.seen.length = n ∧
        w.seen.Nodup ∧ (∀ id ∈ w.seen, id.index < p.exprs.size) ∧ p.checkForest = w.verdict) ∧
    (p.checkForest = .ok () →
      p.analyse.result ≠ .error (.fault .nestedTooDeep) ∧ (Event.visits p.analyse.log).Nodup ∧
      (∀ id ∈ Event.visits p.analyse.log, id.index < p.exprs.size) ∧
      ∀ levels, p.exprs.size ≤ levels → p.analyseWithin levels = p.analyse) := by
  constructor
  · by_cases hinside : p.Inside
    · exact .inr (exists_ends_worklist hinside)
    · obtain ⟨slot, hslot⟩ := exists_firstDangling_iff.mpr hinside
      exact .inl ⟨slot, hslot, checkForest_eq_dangling_iff.mpr hslot⟩
  · intro hforest
    obtain ⟨hnodup, hold⟩ := visits_analyse hforest
    exact ⟨analyse_ne_fault hforest .nestedTooDeep, hnodup, hold, fun _ => analyseWithin_eq hforest⟩

/-- The walk over a node that is part of itself ends. The bodies of the other program are gone into
node by node, initial values first. -/
theorem walks_end_greeting :
    (∃ n w, Worklist.Ends loop.exprs n loop.worklist w ∧
      w.verdict = .error (.shared ⟨.node ⟨0⟩, ⟨0⟩⟩)) ∧
    greeting.checkForest = .ok () ∧
    Event.visits greeting.analyse.log = [⟨0⟩, ⟨5⟩, ⟨4⟩, ⟨3⟩, ⟨1⟩, ⟨2⟩, ⟨8⟩, ⟨6⟩, ⟨7⟩] ∧
    greeting.analyseWithin 9 = greeting.analyse := by
  have hforest : greeting.checkForest = .ok () := by decide +kernel
  have hloop : loop.checkForest = .error (.shared ⟨.node ⟨0⟩, ⟨0⟩⟩) := by decide +kernel
  refine ⟨?_, hforest, by decide +kernel, ((walks_end greeting).2 hforest).2.2.2 9 le_rfl⟩
  rcases (walks_end loop).1 with ⟨slot, -, hdangling⟩ | ⟨n, w, hends, -, -, -, -, hverdict⟩
  · rw [hloop] at hdangling
    cases hdangling
  · exact ⟨n, w, hends, hverdict.symm.trans hloop⟩

end Program

end Lcpl
