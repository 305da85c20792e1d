import Lcpl.Proofs.Analysis.Annotations
import Lcpl.Proofs.Analysis.Phases
import Lcpl.Proofs.Body.Footprint

/-!
# How far an analysis grows the arena

The roots of all features wait for their check. Class by class, those of the attributes come before
those of the methods. The trees below them have no node together, so the footprints of their checks
add up: the whole analysis appends two nodes at most for each node that it goes into.

## Main definitions

* `Feature.CheckRun` — what the check of a feature can come to
* `Class.agenda` — the roots of a class, in the order in which they are checked
* `Ledger.Checks` — a step that checks the roots of an item, in front of all others

## Main results

* `Feature.checkRun` — the check of every feature
* `Ledger.checks_checkClass` — the check of a class
* `Program.footprint_analyse` — the nodes of an analysed program, and the types recorded at them
-/

namespace Lcpl

variable {ι : Type}

/-- The state in front of a body, outside of any scope. -/
def Checking.session (s : Checking) : Session := ⟨s.arena, .empty, s.log⟩

/-! ### The check of a feature -/

namespace Feature

variable {registry : Registry} {id : ClassId} {s : Checking} {f : Feature}

/-- What the check of a feature can come to. Without a root, or if it is refused before its root is
looked at, nothing is changed. -/
inductive CheckRun (registry : Registry) (id : ClassId) (s : Checking) (f : Feature) :
    Except Failure Unit × Checking × Feature → Prop where
  | refused (failure : Failure) : CheckRun registry id s f (.error failure, s, f)
  | plain (hroot : f.root = none) : CheckRun registry id s f (.ok (), s, f)
  | rooted {root Γ e name result s'} (hroot : f.root = some root) (hΓ : Γ.registry = registry)
      (hname : registry.name? id = some name)
      (hrun : (Expectation.check Γ root e).runFrom s.session = (result, s')) :
      CheckRun registry id s f
        (result.map fun _ => (), ⟨s'.arena, s'.log⟩, (f.prepared name).afterRoot result)

/-- A feature that is not registered is refused. -/
theorem exists_runFrom_check_of_unknown {root : ExprId}
    (hadmission : f.admission registry id = .ok ()) (hroot : f.root = some root)
    (hsetting : f.setting? registry id = none) :
    ∃ failure, (f.check registry id).runFrom (s, f) = (.error failure, s, f) := by
  rcases f with m | a
  · have hadmission : registry.checkOverride id m.name = .ok () := hadmission
    have hroot : m.body = some root := hroot
    have hmethod : registry.ownMethod? id m.name = none := by simpa [setting?] using hsetting
    refine ⟨.fault (.missingFeature id m.name), ?_⟩
    simp [check, runFrom_onMethod, Analysis.methodBy, Step.runFrom_bind, hadmission, hroot, hmethod]
  · have hadmission : registry.checkRedefinition id a.name = .ok () := hadmission
    have hroot : a.init = some root := hroot
    have hattribute : registry.ownAttribute? id a.name = none := by simpa [setting?] using hsetting
    refine ⟨.fault (.missingFeature id a.name), ?_⟩
    simp [check, runFrom_onAttribute, Analysis.attributeBy, Step.runFrom_bind, hadmission, hroot,
      hattribute]

/-- The class of a registered feature is registered. -/
theorem exists_name?_of_setting? {Γ : Context} {e : Expectation}
    (h : f.setting? registry id = some (Γ, e)) : ∃ name, registry.name? id = some name := by
  have hclass : ∃ c, registry.class? id = some c := by
    rcases f with m | a
    · obtain ⟨method, hmethod, -⟩ := Option.map_eq_some_iff.mp h
      obtain ⟨c, hc, -⟩ := Option.bind_eq_some_iff.mp hmethod
      exact ⟨c, hc⟩
    · obtain ⟨attr, hattr, -⟩ := Option.map_eq_some_iff.mp h
      obtain ⟨c, hc, -⟩ := Option.bind_eq_some_iff.mp hattr
      exact ⟨c, hc⟩
  obtain ⟨c, hc⟩ := hclass
  exact ⟨c.name, by rw [Registry.name?, hc, Option.map_some]⟩

theorem checkRun (registry : Registry) (id : ClassId) (s : Checking) (f : Feature) :
    CheckRun registry id s f ((f.check registry id).runFrom (s, f)) := by
  obtain ⟨a, log⟩ := s
  cases hadmission : f.admission registry id with
  | error failure =>
    rw [runFrom_check_of_error hadmission]
    exact .refused failure
  | ok =>
    cases hroot : f.root with
    | none =>
      rw [runFrom_check_none hadmission hroot]
      exact .plain hroot
    | some root =>
      cases hsetting : f.setting? registry id with
      | none =>
        obtain ⟨failure, hrun⟩ := exists_runFrom_check_of_unknown hadmission hroot hsetting
        rw [hrun]
        exact .refused failure
      | some setting =>
        obtain ⟨Γ, e⟩ := setting
        obtain ⟨name, hname⟩ := exists_name?_of_setting? hsetting
        rcases hrun : (e.check Γ root).runFrom ⟨a, .empty, log⟩ with ⟨result, s'⟩
        rw [runFrom_check_some hadmission hroot hsetting hname hrun]
        exact .rooted hroot (context_of_setting? hsetting).1 hname hrun

/-! ### The order of the roots -/

/-- The initial value of an attribute. -/
def initial? (f : Feature) : Option ExprId := f.attribute?.bind Attribute.init

/-- The body of a method. -/
def body? (f : Feature) : Option ExprId := f.method?.bind Method.body

end Feature

/-- The roots of a class, in the order in which they are checked: initial values before bodies. -/
def Class.agenda (c : Class) : List ExprId :=
  c.features.filterMap Feature.initial? ++ c.features.filterMap Feature.body?

theorem Class.perm_agenda (c : Class) : c.agenda.Perm c.roots := by
  rw [agenda, roots]
  induction c.features with
  | nil => exact .nil
  | cons f features ih =>
    -- a feature has an initial value or a body, and not both
    have hsplit : f.root = f.initial?.or f.body? := by
      rcases f with m | a
      · rfl
      · exact (Option.or_none).symm
    cases hinitial : f.initial? with
    | some root =>
      have hbody : f.body? = none := by
        rcases f with m | a
        · cases hinitial
        · rfl
      rw [hinitial, Option.some_or] at hsplit
      rw [List.filterMap_cons_some hinitial, List.filterMap_cons_none hbody,
        List.filterMap_cons_some hsplit]
      exact ih.cons root
    | none =>
      rw [hinitial, Option.none_or] at hsplit
      rw [List.filterMap_cons_none hinitial]
      cases hbody : f.body? with
      | none =>
        rw [hbody] at hsplit
        rw [List.filterMap_cons_none hbody, List.filterMap_cons_none hsplit]
        exact ih
      | some root =>
        rw [hbody] at hsplit
        rw [List.filterMap_cons_some hbody, List.filterMap_cons_some hsplit]
        exact List.perm_middle.trans (ih.cons root)

theorem perm_flatMap_agenda (classes : List Class) :
    (classes.flatMap Class.agenda).Perm (classes.flatMap Class.roots) :=
  List.Perm.flatMap_left classes fun c _ => c.perm_agenda

/-! ### Passes -/

namespace Body.Ledger

variable {α : Type} {registry : Registry} {v : Ledger registry} {mark : ExprId → ι}

/-- The step checks the roots of an item, which wait in front of all others. -/
def Checks (v : Ledger registry) (roots : α → List ExprId)
    (step : Step (Checking × α) Unit) : Prop :=
  ∀ s x pending, v.At (roots x ++ pending) 0 (Checking.session s) →
    Step.Ends (fun s' _ => v.At pending 0 s'.session) (fun _ s' _ => v.Left s'.session)
      (step.runFrom (s, x))

theorem Checks.eachFrom {roots : α → List ExprId} {step : Nat → Step (Checking × α) Unit}
    (h : ∀ k, v.Checks roots (step k)) (k : Nat) (s : Checking) (xs : List α)
    {pending : List ExprId} (hat : v.At (xs.flatMap roots ++ pending) 0 s.session) :
    Step.Ends (fun s' _ => v.At pending 0 s'.session) (fun _ s' _ => v.Left s'.session)
      (Step.eachFrom step k xs s) := by
  induction xs generalizing k s with
  | nil => exact hat
  | cons x xs ih =>
    rw [List.flatMap_cons, List.append_assoc] at hat
    have hx := h k s x _ hat
    rcases hrun : (step k).runFrom (s, x) with ⟨failure | ⟨⟩, s', x'⟩
    · rw [hrun] at hx
      rw [Step.eachFrom_cons_of_error hrun]
      exact hx
    · rw [hrun] at hx
      have hrest := ih (k + 1) s' hx
      rw [Step.eachFrom_cons_of_ok hrun]
      rcases hrun' : Step.eachFrom step (k + 1) xs s' with ⟨failure | ⟨⟩, s'', ys⟩
      · rw [hrun'] at hrest
        exact hrest
      · rw [hrun'] at hrest
        exact hrest

/-- A pass over the features of a class. -/
theorem Checks.eachFeature {root? : Feature → Option ExprId} {step : Step (Checking × Feature) Unit}
    (h : v.Checks (fun f => (root? f).toList) step) :
    v.Checks (fun c => c.features.filterMap root?) (Class.eachFeature step) := by
  intro s c pending hat
  dsimp only at hat
  rw [List.filterMap_eq_flatMap_toList] at hat
  have hfeatures := Checks.eachFrom (fun _ => h) 0 s c.features hat
  rw [Class.runFrom_eachFeature]
  rcases hrun : Step.eachFrom (fun _ => step) 0 c.features s with ⟨failure | ⟨⟩, s', features⟩
  · rw [hrun] at hfeatures
    exact hfeatures
  · rw [hrun] at hfeatures
    exact hfeatures

/-- The check of a feature goes into the tree below its root. -/
theorem ends_of_checkRun (hown : v.own = v.start.arena.Readable mark) {id : ClassId} {s : Checking}
    {f : Feature} {r : Except Failure Unit × Checking × Feature}
    (h : Feature.CheckRun registry id s f r) {pending : List ExprId}
    (hat : v.At (f.root.toList ++ pending) 0 s.session) :
    Step.Ends (fun s' _ => v.At pending 0 s'.session) (fun _ s' _ => v.Left s'.session) r := by
  cases h with
  | refused failure => exact hat.left
  | plain hroot =>
    rw [hroot] at hat
    exact hat
  | @rooted root Γ e name result s' hroot hΓ hname hrun =>
    subst hΓ
    rw [hroot] at hat
    -- nothing is earned on the whole: the tree may have spent two nodes for each of its own
    have hafter : v.At pending (0 + 0) (Checking.session ⟨s'.arena, s'.log⟩) := by
      refine hat.visit fun own hread hnodup hwaits => ?_
      rw [hown] at hread
      obtain ⟨t, hread⟩ := hread
      have hadvances := e.advances_check Γ (hread.of_get? hwaits) hnodup
      rw [hrun] at hadvances
      exact ⟨2 * own.length, le_rfl, hadvances.trans_of_eq rfl rfl⟩
    cases result with
    | error failure => exact hafter.left
    | ok root' => exact hafter

theorem checks_onAttribute (hown : v.own = v.start.arena.Readable mark) (id : ClassId) :
    v.Checks (fun f => f.initial?.toList)
      (Feature.onAttribute (Analysis.checkAttribute registry id)) := by
  rintro s (m | a) pending hat
  · exact hat
  · exact ends_of_checkRun hown (Feature.checkRun registry id s (.attribute a)) hat

theorem checks_onMethod (hown : v.own = v.start.arena.Readable mark) (id : ClassId) :
    v.Checks (fun f => f.body?.toList) (Feature.onMethod (Analysis.checkMethod registry id)) := by
  rintro s (m | a) pending hat
  · exact ends_of_checkRun hown (Feature.checkRun registry id s (.method m)) hat
  · exact hat

/-- A pass over the attributes leaves the bodies in their places. -/
theorem filterMap_body?_eachFeature (step : Step (Checking × Attribute) Unit) (s : Checking)
    (c : Class) :
    ((Class.eachFeature (Feature.onAttribute step)).runFrom (s, c)).2.2.features.filterMap
      Feature.body? = c.features.filterMap Feature.body? := by
  have hview (features : List Feature) : features.filterMap Feature.body? =
      (features.map Feature.method?).filterMap fun m? => m?.bind Method.body := by
    rw [List.filterMap_map]
    rfl
  rw [Class.runFrom_eachFeature, hview, Feature.map_method?_onAttribute, ← hview]

/-- The report that a class is begun concerns no node. -/
theorem At.bodyStarted {pending : List ExprId} {s : Checking} (h : v.At pending 0 s.session)
    (name : String) : v.At pending 0 (Checking.session ⟨s.arena, s.log.push (.bodyStarted name)⟩) :=
  h.of_eq rfl ((Event.visits_push s.log _).trans (List.append_nil _))

/-- The second pass starts from the features that the first one has left. The bodies still wait. -/
theorem At.of_initials (hown : v.own = v.start.arena.Readable mark) {id : ClassId} {s s' : Checking}
    {c c' : Class} {pending : List ExprId}
    (h : v.At (c.features.filterMap Feature.initial? ++
      (c.features.filterMap Feature.body? ++ pending)) 0 s.session)
    (hrun : (Class.eachFeature (Feature.onAttribute (Analysis.checkAttribute registry id))).runFrom
      (s, c) = (.ok (), s', c')) :
    v.At (c'.features.filterMap Feature.body? ++ pending) 0 s'.session := by
  have hinitials := (checks_onAttribute hown id).eachFeature s c _ h
  rw [hrun] at hinitials
  have hbodies : c'.features.filterMap Feature.body? = c.features.filterMap Feature.body? := by
    rw [← filterMap_body?_eachFeature (Analysis.checkAttribute registry id) s c, hrun]
  rw [hbodies]
  exact hinitials

/-- The check of a class goes into the trees below its roots, one after the other. -/
theorem checks_checkClass (hown : v.own = v.start.arena.Readable mark) (id : ClassId) :
    v.Checks Class.agenda (Analysis.checkClass registry id) := by
  intro s c pending hat
  rw [Class.agenda, List.append_assoc] at hat
  have hstarted := hat.bodyStarted c.name
  have hinitials := (checks_onAttribute hown id).eachFeature _ c _ hstarted
  rw [Analysis.checkClass, Analysis.classBy, Step.runFrom_bind_of_ok (Step.runFrom_modify ..)]
  rcases hrun : (Class.eachFeature
      (Feature.onAttribute (Analysis.checkAttribute registry id))).runFrom
      (⟨s.arena, s.log.push (.bodyStarted c.name)⟩, c) with ⟨failure | ⟨⟩, s', c'⟩
  · rw [hrun] at hinitials
    rw [Step.runFrom_bind_of_error hrun]
    exact hinitials
  · rw [Step.runFrom_bind_of_ok hrun]
    exact (checks_onMethod hown id).eachFeature s' c' pending (hstarted.of_initials hown hrun)

/-- However the check of the bodies ends, it has kept to the trees below the roots. -/
theorem At.left_of_checkClasses {classes classes' : List Class} {s s' : Checking}
    {result : Except Failure Unit} (hat : v.At (classes.flatMap Class.agenda) 0 s.session)
    (hown : v.own = v.start.arena.Readable mark)
    (hrun : Step.eachFrom (fun k => Analysis.checkClass registry (Analysis.classId k)) 0 classes s =
      (result, s', classes')) : v.Left s'.session := by
  have hchecks (k : Nat) :
      v.Checks Class.agenda (Analysis.checkClass registry (Analysis.classId k)) :=
    checks_checkClass hown (Analysis.classId k)
  rw [← List.append_nil (classes.flatMap Class.agenda)] at hat
  have hends := Checks.eachFrom hchecks 0 s classes hat
  rw [hrun] at hends
  cases result with
  | error failure => exact hends
  | ok => exact hends.left

end Body.Ledger

/-! ### Programs -/

/-- How a type is recorded depends on the names of the classes only. -/
theorem Registry.IsLabel.of_name? {registry registry' : Registry} {type : TypeName}
    (h : registry.IsLabel type) (hname : ∀ id, registry.name? id = registry'.name? id) :
    registry'.IsLabel type := by
  obtain ⟨ty, hty⟩ := h
  refine ⟨ty, ?_⟩
  cases ty with
  | object id =>
    have hlabel (registry : Registry) :
        registry.label? (.object id) = (registry.name? id).map TypeName.object := by
      rw [label?, name?, Option.map_map]
      rfl
    rwa [hlabel, ← hname, ← hlabel]
  | _ => exact hty

namespace Program

variable {p : Program}

theorem isLabel_of_declarations {registry : Registry} (h : p.declarations = .ok registry)
    {type : TypeName} (htype : registry.IsLabel type) : p.names.IsLabel type := by
  obtain ⟨-, rfl⟩ := declarations_eq_ok_iff.mp h
  exact htype.of_name? (Registry.name?_listing fun _ _ => rfl)

/-- The roots of a program whose expressions form trees wait for their check, in its order. -/
theorem exists_ledger (hforest : p.checkForest = .ok ()) {q : Program} (hq : p.Redeclares q)
    (registry : Registry) (log : Array Event) :
    ∃ v : Body.Ledger registry, v.start = ⟨p.exprs, .empty, log⟩ ∧ v.extra = 0 ∧
      v.own = v.start.arena.Readable (fun _ => ()) ∧
      v.At (q.classes.flatMap Class.agenda) 0 (Checking.session ⟨p.exprs, log⟩) := by
  -- the trees are those of the program, put in the order in which they are checked
  obtain ⟨_, hids, hnodup⟩ := exists_reads_of_checkForest (fun _ => ()) hforest
  rw [← Class.flatMap_roots_eq hq.classes] at hids
  obtain ⟨ids, hids, hperm⟩ := hids.of_perm (perm_flatMap_agenda _).symm
  have hlt : ∀ x ∈ ids, x.index < p.exprs.size :=
    hids.forall_mem fun _ _ _ ⟨_, hread⟩ => hread.lt_size
  let v : Body.Ledger registry :=
    ⟨⟨p.exprs, .empty, log⟩, p.exprs.Readable fun _ => (), ids, 0, hperm.nodup_iff.mpr hnodup, hlt⟩
  exact ⟨v, rfl, rfl, rfl, v.at_start hids⟩

/-- Whichever way an analysis ends, it has appended two nodes at most for each node of the program,
and recorded types of the program at them. -/
theorem footprint_analyse (hforest : p.checkForest = .ok ()) :
    p.analyse.program.exprs.size ≤ 3 * p.exprs.size ∧
      ∀ type, p.analyse.program.exprs.Mentions type →
        p.exprs.Mentions type ∨ p.names.IsLabel type := by
  have hsame (hexprs : p.analyse.program.exprs = p.exprs) :
      p.analyse.program.exprs.size ≤ 3 * p.exprs.size ∧
        ∀ type, p.analyse.program.exprs.Mentions type →
          p.exprs.Mentions type ∨ p.names.IsLabel type := by
    rw [hexprs]
    exact ⟨by omega, fun _ h => .inl h⟩
  cases p.lastPhase with
  | declarations _ hr h => exact hsame (by rw [h, hr.exprs])
  | hierarchy _ hr _ h => exact hsame (by rw [h, hr.exprs])
  | @bodies result r s classes log hdeclare hr hcycle hbodies h =>
    obtain ⟨v, hstart, hextra, hown, hat⟩ := exists_ledger hforest hr r.registry
      (r.log.push .hierarchyAcyclic)
    have hleft := hat.left_of_checkClasses hown hbodies
    -- the nodes below the roots are different nodes of the program
    have hsize : v.ids.length ≤ p.exprs.size := by
      have := Arena.length_le_size v.nodup v.lt_size
      rwa [hstart] at this
    rw [Body.Ledger.Left, hstart, hextra] at hleft
    rw [h]
    constructor
    · calc s.arena.size ≤ p.exprs.size + (2 * v.ids.length + 0) := hleft.size_le_add
        _ ≤ 3 * p.exprs.size := by omega
    · intro type htype
      refine (hleft.mentions type htype).imp_right ?_
      exact isLabel_of_declarations (declarations_of_declare hdeclare)

end Program

end Lcpl
