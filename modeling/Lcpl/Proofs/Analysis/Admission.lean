import Lcpl.Proofs.Analysis.Failure

/-!
# What every accepted program has in common

Apart from the bodies, an analysis makes four demands: on the declarations, on the hierarchy, on
each feature by itself, and on the entry point. A program that is accepted meets them, whatever is
in its bodies. Where there are no bodies, nothing else is demanded.

## Main definitions

* `Program.Admitted` — the demands that do not concern bodies

## Main results

* `Analysis.admission_of_checkClass`, `Analysis.exists_checkClass_of_admission` — the check of a
  class
* `Program.admitted_of_analyse` — an accepted program meets the demands
* `Program.exists_analyse_of_admitted` — without bodies, they are enough
-/

namespace Lcpl

/-! ### The check of a class -/

theorem Feature.eq_of_method? {f g : Feature} (hf : f.isMethod = true)
    (h : g.method? = f.method?) : g = f := by
  rcases f with m | a
  · rcases g with m' | a'
    · exact congrArg Feature.method (Option.some_inj.mp h)
    · cases h
  · cases hf

theorem Class.exists_eachFeature_of_ok {σ : Type} {step : Step (σ × Feature) Unit} {c : Class}
    (h : ∀ f ∈ c.features, ∀ s, step.runFrom (s, f) = (.ok (), s, f)) (s : σ) :
    ∃ s', (Class.eachFeature step).runFrom (s, c) = (.ok (), s', c) := by
  have hfeatures : ∃ s', Step.eachFrom (fun _ => step) 0 c.features s = (.ok (), s', c.features) :=
    Step.exists_eachFrom_of_ok (fun i f s hf => ⟨s, h f (List.mem_of_getElem? hf) s⟩) s
  obtain ⟨s', hrun⟩ := hfeatures
  exact ⟨s', by rw [runFrom_eachFeature, hrun]⟩

namespace Analysis

variable {registry : Registry} {id : ClassId} {c c' : Class} {f f' : Feature} {s s' : Checking}

theorem admission_of_check (h : (f.check registry id).runFrom (s, f) = (.ok (), s', f')) :
    f.admission registry id = .ok () := by
  cases hadmission : f.admission registry id with
  | ok => rfl
  | error failure =>
    rw [Feature.runFrom_check_of_error hadmission] at h
    cases h

/-- If a class passes its check, each of its features is admitted. -/
theorem admission_of_checkClass (h : (checkClass registry id).runFrom (s, c) = (.ok (), s', c')) :
    ∀ f ∈ c.features, f.admission registry id = .ok () := by
  intro f hf
  rw [checkClass, classBy, Step.runFrom_bind_of_ok (Step.runFrom_modify _ _),
    Step.runFrom_bind_eq_ok] at h
  obtain ⟨⟨⟩, ⟨t, d⟩, hattributes, hmethods⟩ := h
  rw [Class.runFrom_eachFeature] at hattributes hmethods
  obtain ⟨j, hj⟩ := List.mem_iff_getElem?.mp hf
  rcases hfirst : Step.eachFrom (fun _ => Feature.onAttribute (checkAttribute registry id)) 0
    c.features { s with log := s.log.push (.bodyStarted c.name) } with ⟨result, u, features⟩
  rw [hfirst] at hattributes
  obtain ⟨rfl, rfl, rfl⟩ := by simpa using hattributes
  cases hmethod : f.isMethod with
  | false =>
    obtain ⟨v, v', g, hrun⟩ := Step.exists_of_eachFrom_ok hfirst hj
    rw [← Feature.check_of_not_isMethod hmethod] at hrun
    exact admission_of_check hrun
  | true =>
    -- the first pass has left the methods as they were
    have hkept := Feature.map_method?_onAttribute (checkAttribute registry id) 0 c.features
      { s with log := s.log.push (.bodyStarted c.name) }
    rw [hfirst] at hkept
    have hj' : features[j]? = some f := by
      have hat := congrArg (fun methods => methods[j]?) hkept
      rw [List.getElem?_map, List.getElem?_map, hj] at hat
      obtain ⟨g, hg, hsame⟩ := Option.map_eq_some_iff.mp hat
      rw [hg, Feature.eq_of_method? hmethod hsame]
    rcases hsecond : Step.eachFrom (fun _ => Feature.onMethod (checkMethod registry id)) 0
      features u with ⟨result, v, features'⟩
    rw [hsecond] at hmethods
    obtain ⟨rfl, rfl, rfl⟩ := by simpa using hmethods
    obtain ⟨w, w', g, hrun⟩ := Step.exists_of_eachFrom_ok hsecond hj'
    rw [← Feature.check_of_isMethod hmethod] at hrun
    exact admission_of_check hrun

/-- A class whose features are admitted and have no root passes its check unchanged. -/
theorem exists_checkClass_of_admission (hroots : ∀ f ∈ c.features, f.root = none)
    (h : ∀ f ∈ c.features, f.admission registry id = .ok ()) (s : Checking) :
    ∃ s', (checkClass registry id).runFrom (s, c) = (.ok (), s', c) := by
  have hcheck (f : Feature) (hf : f ∈ c.features) (s : Checking) :
      (f.check registry id).runFrom (s, f) = (.ok (), s, f) :=
    Feature.runFrom_check_none (h f hf) (hroots f hf)
  have hattributes (f : Feature) (hf : f ∈ c.features) (s : Checking) :
      (Feature.onAttribute (checkAttribute registry id)).runFrom (s, f) = (.ok (), s, f) := by
    rcases f with m | a
    · rfl
    · exact hcheck _ hf s
  have hmethods (f : Feature) (hf : f ∈ c.features) (s : Checking) :
      (Feature.onMethod (checkMethod registry id)).runFrom (s, f) = (.ok (), s, f) := by
    rcases f with m | a
    · exact hcheck _ hf s
    · rfl
  rw [checkClass, classBy, Step.runFrom_bind_of_ok (Step.runFrom_modify _ _)]
  obtain ⟨t, ht⟩ := Class.exists_eachFeature_of_ok hattributes
    { s with log := s.log.push (.bodyStarted c.name) }
  obtain ⟨u, hu⟩ := Class.exists_eachFeature_of_ok hmethods t
  exact ⟨u, by rw [Step.runFrom_bind_of_ok ht, hu]⟩

end Analysis

namespace Program

variable {p : Program} {registry : Registry}

/-- The demands of the analysis that do not concern bodies. -/
structure Admitted (p : Program) : Prop where
  declared : p.WellDeclared
  acyclic : p.table.checkCycles = .ok ()
  features : ∀ i j f, featureAt? p.classes i j = some f →
    f.admission p.table (Analysis.classId i) = .ok ()
  entry : p.table.checkEntry p.line = .ok ()

/-- A program that is accepted meets all the demands. -/
theorem admitted_of_analyse (h : p.analyse.result = .ok registry) : p.Admitted := by
  cases p.lastPhase with
  | declarations _ _ houtcome =>
    rw [houtcome] at h
    cases h
  | hierarchy _ _ _ houtcome =>
    rw [houtcome] at h
    cases h
  | @bodies result r s classes log hdeclare hr hcycle hbodies houtcome =>
    rw [houtcome] at h
    obtain ⟨hdeclared, htable⟩ := declarations_eq_ok_iff.mp (declarations_of_declare hdeclare)
    rw [htable] at h hcycle hbodies
    cases result with
    | error failure => cases h
    | ok =>
      refine ⟨hdeclared, hcycle, fun i j f hf => ?_, ?_⟩
      · -- the feature was checked with its annotations, at which no demand looks
        obtain ⟨g, hg, hbare⟩ := exists_featureAt?_of_bare hr.classes.symm hf
        obtain ⟨-, -, hadmission, -⟩ := Feature.eq_of_bare hbare p.table (Analysis.classId i)
        obtain ⟨c, hc, hg⟩ := Option.bind_eq_some_iff.mp hg
        obtain ⟨t, t', c', hrun⟩ := Step.exists_of_eachFrom_ok hbodies hc
        rw [Nat.zero_add] at hrun
        rw [← hadmission]
        exact Analysis.admission_of_checkClass hrun g (List.mem_of_getElem? hg)
      · exact (checkEntry_of_map_eq_ok h).1

/-- Where there are no bodies, the demands are all there is. -/
theorem exists_analyse_of_admitted
    (hroots : ∀ i j f, featureAt? p.classes i j = some f → f.root = none) (h : p.Admitted) :
    ∃ registry, p.analyse.result = .ok registry := by
  have hdeclarations : p.declarations = .ok p.table := declarations_eq_ok_iff.mpr ⟨h.declared, rfl⟩
  cases p.lastPhase with
  | declarations hdeclare _ _ =>
    rw [declarations, hdeclare] at hdeclarations
    cases hdeclarations
  | hierarchy hdeclare _ hcycle _ =>
    obtain ⟨-, htable⟩ := declarations_eq_ok_iff.mp (declarations_of_declare hdeclare)
    rw [htable, h.acyclic] at hcycle
    cases hcycle
  | @bodies result r s classes log hdeclare hr hcycle hbodies houtcome =>
    obtain ⟨-, htable⟩ := declarations_eq_ok_iff.mp (declarations_of_declare hdeclare)
    rw [htable] at hbodies houtcome
    -- without roots every check ends well, and changes no class
    have hclasses : ∃ s', Step.eachFrom
        (fun k => Analysis.checkClass p.table (Analysis.classId k)) 0 r.program.classes
        ⟨p.exprs, r.log.push .hierarchyAcyclic⟩ = (.ok (), s', r.program.classes) := by
      refine Step.exists_eachFrom_of_ok (fun i c s hc => ?_) _
      rw [Nat.zero_add]
      have hfeature (f : Feature) (hf : f ∈ c.features) :
          f.root = none ∧ f.admission p.table (Analysis.classId i) = .ok () := by
        obtain ⟨j, hj⟩ := List.mem_iff_getElem?.mp hf
        have hat : featureAt? r.program.classes i j = some f := by rw [featureAt?, hc]; exact hj
        obtain ⟨g, hg, hbare⟩ := exists_featureAt?_of_bare hr.classes hat
        obtain ⟨hroot, -, hadmission, -⟩ := Feature.eq_of_bare hbare p.table (Analysis.classId i)
        exact ⟨hroot ▸ hroots i j g hg, hadmission ▸ h.features i j g hg⟩
      exact Analysis.exists_checkClass_of_admission (fun f hf => (hfeature f hf).1)
        (fun f hf => (hfeature f hf).2) s
    obtain ⟨s', hrun⟩ := hclasses
    obtain ⟨rfl, -⟩ := Prod.mk.inj (hbodies.symm.trans hrun)
    refine ⟨p.table, ?_⟩
    rw [houtcome]
    dsimp only [Except.bind]
    rw [h.entry]
    rfl

end Program

end Lcpl
