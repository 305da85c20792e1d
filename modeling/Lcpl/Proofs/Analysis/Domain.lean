import Lcpl.Proofs.Analysis.Accepted
import Lcpl.Proofs.Analysis.Course
import Lcpl.Proofs.Preserves
import Lcpl.Proofs.Registry.Range

/-!
# No operation outside its domain

Where a step of an analysis takes something for granted, it faults if that is not so: a handle has a
node, a number has a class, a feature was registered before its body is checked, a scope was entered
before it is left, two lists are as long as each other. An analysis of a program whose expressions
form trees never faults. Where it looks a class up by number without a fault to fall back on, the
number is in range, because the registry stays closed while it is built.

## Main definitions

* `Hierarchy.Complete` — the registry of a program of a given length, with all numbers in range

## Main results

* `Hierarchy.ensures_build`, `Signature.safe_declareClass` — the registry stays closed
* `Program.analyse_ne_fault` — an analysis does not fault
* `Program.within_domain` — the same, with the class numbers in range
-/

namespace Lcpl

/-! ### The hierarchy -/

namespace Hierarchy

/-- The registry is closed and has the classes of a program with `count` of them. -/
def Complete (count : Nat) (s : Resolving) : Prop :=
  s.registry.size = Registry.builtin.size + count ∧ s.registry.Closed count

variable {count : Nat}

/-- Every class is registered, or one is rejected. -/
theorem ensures_registerFrom {k : Nat} {classes : List Class}
    (hcount : k + classes.length = count) :
    Step.Ensures
      (fun s => s.registry.size = Registry.builtin.size + k ∧ s.registry.Closed count)
      (registerFrom k classes) (fun _ => Complete count)
      fun failure s => failure.IsRejection ∧ s.registry.Closed count := by
  induction classes generalizing k with
  | nil =>
    obtain rfl : k = count := hcount
    exact .pure fun _ hs => hs
  | cons c classes ih =>
    rintro s ⟨hsize, hclosed⟩
    rw [List.length_cons] at hcount
    cases hadd : s.registry.add? (.declared c.name c.line (.declared k) c.parent) with
    | none =>
      rw [runFrom_registerFrom_of_none hadd]
      exact ⟨⟨_, rfl⟩, hclosed⟩
    | some registry =>
      rw [runFrom_registerFrom_of_some hadd]
      refine ih (by omega) { s with registry } ⟨?_, ?_⟩
      · rw [Registry.size_of_add? hadd, hsize, Nat.add_assoc]
      · exact hclosed.add? hadd (ClassDef.below_declared _ _ _ (by omega))

/-- The parent by declaration is `Object` or a class that was found by name. -/
theorem declaredParent_cases (registry : Registry) (c : ClassDef) :
    (∃ error, declaredParent registry c = .error (.rejected error)) ∨
      ∃ parent, declaredParent registry c = .ok parent ∧
        (parent = .object ∨ ∃ name, registry.find? name = some parent) := by
  -- whatever the parent is, it is compared with the class of texts
  have hcheck {parent : ClassId} (h : parent = .object ∨ ∃ name, registry.find? name = some parent)
      {checked : Except Failure ClassId}
      (hchecked : checked =
        if parent = .string then .error (.rejected ⟨c.line, .cannotInheritString⟩)
        else .ok parent) :
      (∃ error, checked = .error (.rejected error)) ∨ ∃ parent, checked = .ok parent ∧
        (parent = .object ∨ ∃ name, registry.find? name = some parent) := by
    split at hchecked
    · exact .inl ⟨_, hchecked⟩
    · exact .inr ⟨parent, hchecked, h⟩
  rw [declaredParent]
  cases c.declaredParent with
  | none => exact hcheck (.inl rfl) rfl
  | some name =>
    dsimp only
    cases hfind : registry.find? name with
    | none => exact .inl ⟨_, rfl⟩
    | some parent => exact hcheck (.inr ⟨name, hfind⟩) rfl

theorem safe_linkParent {id : ClassId} (hid : id.index < Registry.builtin.size + count) :
    Step.Preserves (Complete count) Failure.IsRejection (linkParent id) := by
  rintro s ⟨hsize, hclosed⟩
  rw [← hsize] at hid
  obtain ⟨c, hc⟩ := Registry.exists_class?_of_lt hid
  rcases declaredParent_cases s.registry c with ⟨error, hparent⟩ | ⟨parent, hparent, hfound⟩
  · rw [runFrom_linkParent_of_error hc hparent]
    exact ⟨⟨error, rfl⟩, hsize, hclosed⟩
  · rw [runFrom_linkParent_of_ok hc hparent]
    -- a parent was found, so it is a class of the registry
    have hlt : parent.index < s.registry.size := by
      rcases hfound with rfl | ⟨name, hname⟩
      · rw [hsize]
        exact Nat.lt_of_lt_of_le (by decide) (Nat.le_add_right Registry.builtin.size count)
      · exact hclosed.indexed.lt_size_of_find? hname
    refine ⟨(Registry.size_set ..).trans hsize, hclosed.set hc rfl ?_⟩
    exact { hclosed.below hc with parent := fun _ h => Option.some_inj.mp h ▸ hlt }

theorem safe_linkParents : Step.Preserves (Complete count) Failure.IsRejection linkParents := by
  intro s hs
  rw [linkParents, Step.runFrom_bind_of_ok (Step.runFrom_get s)]
  refine Step.Preserves.forM (fun entry hentry => ?_) s hs
  obtain ⟨id, hid, hentry⟩ := List.mem_filterMap.mp hentry
  have hlt : id.index < s.registry.size := Registry.mem_ids.mp hid
  rw [hs.1] at hlt
  split at hentry
  · obtain rfl := Option.some_inj.mp hentry
    exact safe_linkParent hlt
  · cases hentry

/-- Every class is registered and linked, or one is rejected. -/
theorem ensures_build (classes : List Class) :
    Step.Ensures
      (fun s => s.registry.size = Registry.builtin.size ∧ s.registry.Closed classes.length)
      (build classes) (fun _ => Complete classes.length)
      fun failure s => failure.IsRejection ∧ s.registry.Closed classes.length := by
  have hregister : Step.Ensures
      (fun s => s.registry.size = Registry.builtin.size ∧ s.registry.Closed classes.length)
      (register classes) (fun _ => Complete classes.length)
      fun failure s => failure.IsRejection ∧ s.registry.Closed classes.length :=
    .bind (ensures_registerFrom (Nat.zero_add _)) fun _ _ hs => hs
  exact hregister.bind fun _ => safe_linkParents.mono_failed fun _ _ h => ⟨h.1, h.2.2⟩

/-- However it ends, building the hierarchy leaves a closed registry. -/
theorem closed_build (classes : List Class) (log : Array Event) :
    ((build classes).runFrom ⟨.builtin, log⟩).2.registry.Closed classes.length := by
  have hbuild := (ensures_build classes).mono (fun _ hs => hs) fun _ _ h => h.2
  exact (hbuild.mono_failed fun _ _ h => h.2).final ⟨rfl, Registry.closed_builtin _⟩

end Hierarchy

/-! ### Signatures -/

/-- Parameters resolve to registered classes, or are rejected. -/
theorem Registry.resolveParams_cases {registry : Registry} (hindexed : registry.Indexed)
    (params : List Param) :
    (∃ error, (registry.resolveParams params).1 = .error (.rejected error)) ∨
      ∃ defs, (registry.resolveParams params).1 = .ok defs ∧
        ∀ param ∈ defs, param.ty.Below registry.size := by
  induction params with
  | nil => exact .inr ⟨[], rfl, by simp⟩
  | cons param params ih =>
    rw [resolveParams, resolveDeclared]
    cases hty : registry.resolve? param.typeName with
    | none => exact .inl ⟨_, rfl⟩
    | some ty =>
      dsimp only
      rcases ih with ⟨error, hrest⟩ | ⟨defs, hrest, hbelow⟩
      · exact .inl ⟨error, by rw [hrest]; rfl⟩
      · refine .inr ⟨⟨param.name, param.typeName, ty⟩ :: defs, by rw [hrest]; rfl, ?_⟩
        exact List.forall_mem_cons.mpr ⟨hindexed.below_of_resolve? hty, hbelow⟩

namespace Signature

open Hierarchy (Complete)

variable {count : Nat} {id : ClassId}

theorem safe_declareMethod (hid : id.index < Registry.builtin.size + count) :
    Step.Preserves (Step.Beside (Complete count) fun _ => True) Failure.IsRejection
      (declareMethod id) := by
  rintro ⟨⟨registry, log⟩, m⟩ ⟨⟨hsize, hclosed⟩, -⟩
  dsimp only at hsize hclosed
  rw [← hsize] at hid
  obtain ⟨c, hc⟩ := Registry.exists_class?_of_lt hid
  obtain ⟨log', hrun⟩ := runFrom_declareMethod id registry log m
  rw [hrun, hc]
  dsimp only
  by_cases htaken : (c.method? m.name).isSome
  · rw [if_pos htaken]
    exact ⟨⟨_, rfl⟩, ⟨hsize, hclosed⟩, trivial⟩
  · rw [if_neg htaken]
    rcases Registry.resolveParams_cases hclosed.indexed m.params with
      ⟨error, hparams⟩ | ⟨defs, hparams, hbelow⟩
    · rcases hresolve : registry.resolveParams m.params with ⟨result, params⟩
      obtain rfl : result = .error (.rejected error) := by rw [← hparams, hresolve]
      exact ⟨⟨error, rfl⟩, ⟨hsize, hclosed⟩, trivial⟩
    · rcases hresolve : registry.resolveParams m.params with ⟨result, params⟩
      obtain rfl : result = .ok defs := by rw [← hparams, hresolve]
      refine ⟨⟨(Registry.size_set ..).trans hsize, hclosed.set hc rfl ?_⟩, trivial⟩
      have hmethod : (m.registered registry id defs).Below registry.size :=
        ⟨hid, hbelow, fun ty hty => hclosed.indexed.below_of_resolveReturn? hty⟩
      refine { hclosed.below hc with
        methods := List.forall_mem_append.mpr ⟨(hclosed.below hc).methods, ?_⟩ }
      simpa using hmethod

theorem safe_declareAttribute (hid : id.index < Registry.builtin.size + count) :
    Step.Preserves (Step.Beside (Complete count) fun _ => True) Failure.IsRejection
      (declareAttribute id) := by
  rintro ⟨⟨registry, log⟩, a⟩ ⟨⟨hsize, hclosed⟩, -⟩
  dsimp only at hsize hclosed
  rw [← hsize] at hid
  obtain ⟨c, hc⟩ := Registry.exists_class?_of_lt hid
  rw [runFrom_declareAttribute, hc]
  cases hty : registry.resolve? a.typeName with
  | none => exact ⟨⟨_, rfl⟩, ⟨hsize, hclosed⟩, trivial⟩
  | some ty =>
    dsimp only
    by_cases htaken : (c.attribute? a.name).isSome
    · rw [if_pos htaken]
      exact ⟨⟨_, rfl⟩, ⟨hsize, hclosed⟩, trivial⟩
    · rw [if_neg htaken]
      refine ⟨⟨(Registry.size_set ..).trans hsize, hclosed.set hc rfl ?_⟩, trivial⟩
      have hattr : AttributeDef.Below registry.size ⟨a.name, id, a.typeName, ty⟩ :=
        ⟨hid, hclosed.indexed.below_of_resolve? hty⟩
      refine { hclosed.below hc with
        attributes := List.forall_mem_append.mpr ⟨(hclosed.below hc).attributes, ?_⟩ }
      simpa using hattr

theorem safe_declareClass (hid : id.index < Registry.builtin.size + count) :
    Step.Preserves (Step.Beside (Complete count) fun _ => True) Failure.IsRejection
      (declareClass id) := by
  have hmethods := (safe_declareMethod hid).onMethod (J := fun _ => True)
  have hattributes := (safe_declareAttribute hid).onAttribute (J := fun _ => True)
  exact (hmethods.eachFeature.bind fun _ => hattributes.eachFeature).any fun _ _ _ => trivial

end Signature

/-! ### The phases -/

namespace Analysis

/-- However they end, the phases in front of the bodies leave a closed registry, and they fail by a
rejection only. -/
theorem safe_declare (p : Program) :
    (declare.runFrom (start p)).2.registry.Closed p.classes.length ∧
      ∀ failure, (declare.runFrom (start p)).1 = .error failure → failure.IsRejection := by
  have hbuilds := Hierarchy.ensures_build p.classes
  have hbegin : Registry.builtin.size = Registry.builtin.size ∧
      Registry.builtin.Closed p.classes.length := ⟨rfl, Registry.closed_builtin _⟩
  have hdeclaring := declaring p
  generalize declare.runFrom (start p) = ran at hdeclaring ⊢
  cases hdeclaring with
  | unbuilt hbuild =>
    obtain ⟨hrejected, hclosed⟩ := hbuilds.error hbegin hbuild
    exact ⟨hclosed, fun _ h => Except.error.inj h ▸ hrejected⟩
  | @signed s result t classes hbuild hsignatures log =>
    have hcomplete : Hierarchy.Complete p.classes.length
        ⟨s.registry, s.log.push .hierarchyResolved⟩ :=
      (hbuilds.ok hbegin hbuild : Hierarchy.Complete p.classes.length s)
    have hclass (j : Nat) (hj : j < (withParents s.registry p.classes).length) :
        Step.Preserves (Step.Beside (Hierarchy.Complete p.classes.length) fun _ => True)
          Failure.IsRejection (Signature.declareClass (classId j)) :=
      Signature.safe_declareClass (by simpa [withParents, classId] using hj)
    have hsafe := Step.Preserves.eachFrom hclass hcomplete fun _ _ => trivial
    rw [hsignatures] at hsafe
    rcases result with failure | ⟨⟩
    · exact ⟨hsafe.2.1.2, fun _ h => Except.error.inj h ▸ hsafe.1⟩
    · exact ⟨hsafe.1.2, fun _ h => by cases h⟩

/-- Behind the signatures, the registry stays as it is. -/
theorem registry_run (p : Program) :
    (run.runFrom (start p)).2.registry = (declare.runFrom (start p)).2.registry := by
  rcases hdeclare : declare.runFrom (start p) with ⟨failure | ⟨⟩, r⟩
  · rw [run, runBy, Step.runFrom_bind_of_error hdeclare]
  · cases hcycle : r.registry.checkCycles with
    | error failure => rw [runFrom_run_of_cycle hdeclare hcycle]
    | ok =>
      rcases hbodies :
        Step.eachFrom (fun k => checkClass r.registry (classId k)) 0 r.program.classes
          ⟨r.program.exprs, r.log.push .hierarchyAcyclic⟩ with ⟨result, s, classes⟩
      obtain ⟨log, hrun⟩ := runFrom_run_of_bodies hdeclare hcycle hbodies
      rw [hrun]

end Analysis

namespace Agenda

variable {ι : Type} {w : Agenda ι} {i j : Nat} {f f' : Feature} {a : Arena} {failure : Failure}

/-- The comparison with the ancestors finds the class and the feature. -/
theorem admission_ne_fault (hf : featureAt? w.classes i j = some f) (fault : Fault) :
    f.admission w.registry (Analysis.classId i) ≠ .error (.fault fault) := by
  obtain ⟨ids, hraw, -⟩ := w.raw hf
  rcases f with m | attr
  · obtain ⟨method, hmethod, -⟩ := hraw.known.declares
    exact Registry.checkOverride_ne_fault hmethod fault
  · obtain ⟨name, hname⟩ := hraw.known.className
    obtain ⟨c, hc, -⟩ := Option.map_eq_some_iff.mp hname
    exact Registry.checkRedefinition_ne_fault hc fault

/-- A feature is stopped by a rejection. -/
theorem Stopped.ne_fault (h : w.Stopped i failure a f f') (hf : featureAt? w.classes i j = some f)
    (fault : Fault) : failure ≠ .fault fault := by
  rintro rfl
  cases h with
  | refused hadmission => exact admission_ne_fault hf fault hadmission
  | @rooted name root Γ e t t' ids ids' hadmission hname hroot hsetting hread helaborate hread' =>
    obtain ⟨hΓ, hregistry, he⟩ := Feature.sound_setting w.coherent hname hsetting
    have hgood : ∀ f, (e.elaborate Γ w.made t).1 ≠ .error (.fault f) :=
      (Expectation.good_elaborate (N := fun _ => .any) hΓ trivial t.named_any (hregistry ▸ he)).2
    exact hgood fault (by rw [helaborate])

end Agenda

namespace Program

variable {p : Program}

theorem declarations_ne_fault (fault : Fault) : p.declarations ≠ .error (.fault fault) := by
  have hrejected := (Analysis.safe_declare p).2
  unfold declarations
  rcases hdeclare : Analysis.declare.runFrom (Analysis.start p) with ⟨failure | ⟨⟩, r⟩
  · rw [hdeclare] at hrejected
    exact fun h => (hrejected failure rfl).ne_fault fault (Except.error.inj h)
  · exact ok_ne_fault _ fault

/-- An analysis of a program whose expressions form trees does not fault. -/
theorem analyse_ne_fault (hforest : p.checkForest = .ok ()) (fault : Fault) :
    p.analyse.result ≠ .error (.fault fault) := by
  cases p.course hforest with
  | early failure hcause hresult =>
    rw [hresult]
    intro h
    obtain rfl := Except.error.inj h
    rcases hcause with hdeclare | ⟨registry, -, hcycle⟩
    · exact declarations_ne_fault fault hdeclare
    · exact Registry.checkCycles_ne_fault fault hcycle
  | halted failure w hw hresult h =>
    obtain ⟨i, j, f, f', hf, -, hstopped, -⟩ := h
    rw [hresult]
    exact fun h => hstopped.ne_fault hf fault (Except.error.inj h)
  | finished w hw hresult =>
    rw [hresult]
    have hentry := w.registry.checkEntry_ne_fault p.line fault
    cases hcheck : w.registry.checkEntry p.line with
    | error failure =>
      rw [hcheck] at hentry
      exact fun h => hentry (congrArg Except.error (Except.error.inj h))
    | ok => exact ok_ne_fault _ fault

variable (p) in
/-- The registry behind the hierarchy, whose parents are recorded then, and the one at the end. -/
def registries : List Registry :=
  [(Analysis.resolveHierarchy.runFrom (Analysis.start p)).2.registry,
    (Analysis.run.runFrom (Analysis.start p)).2.registry]

theorem closed_of_mem_registries {r : Registry} (h : r ∈ p.registries) :
    r.Closed p.classes.length := by
  rcases List.mem_pair.mp h with rfl | rfl
  · exact Hierarchy.closed_build p.classes #[]
  · rw [Analysis.registry_run]
    exact (Analysis.safe_declare p).1

variable (p) in
/-- No operation of an analysis is used outside its domain. -/
structure WithinDomain : Prop where
  /-- Nothing that a step takes for granted is missing. -/
  no_fault : ∀ fault, p.analyse.result ≠ .error (.fault fault)
  /-- Every class number and every position that is stored is in range. -/
  closed : ∀ r ∈ p.registries, r.Closed p.classes.length
  /-- Every class that is met on the way along parents is registered. -/
  ancestors : ∀ r ∈ p.registries, ∀ id, ∀ ancestor ∈ r.ancestors id, ancestor.index < r.size
  /-- Every type that a name resolves to can be recorded. -/
  label : ∀ r ∈ p.registries, ∀ name ty, r.resolve? name = some ty → (r.label? ty).isSome
  /-- Every class of the program is registered when its features are checked. -/
  current : ∀ r, p.declarations = .ok r →
    ∀ i < p.classes.length, (Analysis.classId i).index < r.size
  /-- No built-in class and none of its methods is refused. -/
  builtin : Registry.ofClasses? Registry.builtin.classes.toList = some Registry.builtin

/-- An analysis of a program whose expressions form trees uses no operation outside its domain. -/
theorem within_domain (hforest : p.checkForest = .ok ()) : p.WithinDomain where
  no_fault := analyse_ne_fault hforest
  closed _ hr := closed_of_mem_registries hr
  ancestors _ hr _ _ hancestor := (closed_of_mem_registries hr).lt_size_of_mem_ancestors hancestor
  label _ hr _ _ hty := Registry.isSome_label?_of_below
    ((closed_of_mem_registries hr).indexed.below_of_resolve? hty)
  current r hr i hi := by
    obtain ⟨-, rfl⟩ := declarations_eq_ok_iff.mp hr
    rw [size_table]
    exact Nat.add_lt_add_left hi _
  builtin := Registry.ofClasses?_builtin

/-- A method that is overridden and called, with a local definition and a sum of a text and a
number. -/
def greeting : Program where
  line := 1
  classes := [
    { line := 1, name := "Host", parent := none, recordedParent := none
      features :=
        [.method (.declared 2 "greet" [.declared 2 "guest" "String", .declared 2 "seats" "Int"]
        "String" none)] },
    { line := 3, name := "Main", parent := some "Host", recordedParent := none
      features := [
        .attribute (.declared 4 "hall" "Int" (some ⟨0⟩)),
        .method (.declared 5 "greet" [.declared 5 "visitor" "String", .declared 5 "rows" "Int"]
          "String" (some ⟨5⟩)),
        .method (.declared 8 "main" [] "void" (some ⟨8⟩))] }]
  exprs := ⟨#[
    ⟨4, .intConstant 7, none⟩,
    ⟨6, .symbol "visitor" none, none⟩,
    ⟨6, .symbol "n" none, none⟩,
    ⟨6, .addition ⟨1⟩ ⟨2⟩, none⟩,
    ⟨6, .symbol "rows" none, none⟩,
    ⟨6, .localDefinition "n" "Int" (some ⟨4⟩) (some ⟨3⟩) none, none⟩,
    ⟨9, .stringConstant "all", none⟩,
    ⟨9, .symbol "hall" none, none⟩,
    ⟨9, .dispatch none "greet" [⟨6⟩, ⟨7⟩] none, none⟩]⟩
  builtins := []

theorem within_domain_greeting :
    greeting.checkForest = .ok () ∧ (∃ registry, greeting.analyse.result = .ok registry) ∧
      greeting.WithinDomain := by
  have hforest : greeting.checkForest = .ok () := by decide +kernel
  exact ⟨hforest, exists_of_toBool (by decide +kernel), within_domain hforest⟩

end Program

end Lcpl
