import Lcpl.Proofs.Analysis.Accepted
import Lcpl.Proofs.Analysis.Course

/-!
# An analysis annotates

Whichever way an analysis ends, the program that it leaves is the one it was given, with
annotations. Declarations keep what they declare, nodes keep their lines and forms, and a slot holds
what it held, or a cast around it. What is not below a root of the program stays as it is, and so
does what is below a cast to an unknown type.

## Main definitions

* `Program.Touched` — the nodes that an analysis may touch

## Main results

* `Program.annotates_analyse` — what an analysis may change
-/

namespace Lcpl

variable {ι : Type}

/-! ### Features -/

/-- If the classes agree in some view of their features, then so does the feature at each
position. -/
theorem featureAt?_congr {view : Feature → Feature} {viewClass : Class → Class}
    (hview : ∀ c, (viewClass c).features = c.features.map view) {classes classes' : List Class}
    (h : classes.map viewClass = classes'.map viewClass) (i j : Nat) :
    (featureAt? classes i j).map view = (featureAt? classes' i j).map view := by
  have hat (classes : List Class) : (featureAt? classes i j).map view =
      (classes.map viewClass)[i]?.bind fun c => c.features[j]? := by
    rw [featureAt?, List.getElem?_map]
    cases classes[i]? with
    | none => rfl
    | some c => simp [hview]
  rw [hat, h, ← hat]

theorem Feature.root_bare (f : Feature) : f.bare.root = f.root := by
  rcases f with m | a <;> rfl

theorem exists_featureAt?_of_bare {classes classes' : List Class} {i j : Nat} {f : Feature}
    (h : classes.map Class.bare = classes'.map Class.bare) (hf : featureAt? classes i j = some f) :
    ∃ f', featureAt? classes' i j = some f' ∧ f'.bare = f.bare := by
  have hview := featureAt?_congr (fun _ => rfl) h i j
  rw [hf, Option.map_some] at hview
  exact Option.map_eq_some_iff.mp hview.symm

namespace Agenda

variable {w : Agenda ι} {i j : Nat} {a : Arena} {f f' : Feature} {failure : Failure}

theorem Finished.rel_root (h : w.Finished i a f f') :
    Option.Rel (a.LeadsTo w.base.size) f'.root f.root := by
  cases h with
  | plain _ hroot =>
    rw [hroot]
    exact .none
  | rooted _ _ hroot _ _ _ _ _ hleads =>
    rw [hroot, Feature.root_withRoot]
    exact .some hleads

theorem Stopped.root_eq (h : w.Stopped i failure a f f') : f'.root = f.root := by
  cases h with
  | refused => rfl
  | rooted => exact Feature.root_prepared ..

theorem rel_leadsTo_refl (a : Arena) (n : Nat) (root : Option ExprId) :
    Option.Rel (a.LeadsTo n) root root := by
  cases root with
  | none => exact .none
  | some root => exact .some (.refl a n root)

/-- Where the check was stopped, a feature is finished, or it is the one at which the check was
stopped, or it is as it was. -/
theorem Halted.rel_root {view : Nat → Nat → Option Feature} (h : w.Halted failure view a)
    (hf : featureAt? w.classes i j = some f) (hf' : view i j = some f') :
    Option.Rel (a.LeadsTo w.base.size) f'.root f.root := by
  obtain ⟨i₀, j₀, g, g', hg, hg', hstopped, hprogress⟩ := h
  by_cases hbefore : (f.turn i j).Before (g.turn i₀ j₀)
  · obtain ⟨f'', hview, hfinished⟩ := hprogress.finished i j f hf hbefore
    obtain rfl := Option.some_inj.mp (hf'.symm.trans hview)
    exact hfinished.rel_root
  by_cases hturn : f.turn i j = g.turn i₀ j₀
  · obtain ⟨rfl, -, rfl⟩ := Turn.mk.inj hturn
    obtain rfl := Option.some_inj.mp (hf.symm.trans hg)
    obtain rfl := Option.some_inj.mp (hf'.symm.trans hg')
    rw [hstopped.root_eq]
    exact rel_leadsTo_refl ..
  · have hwaits := Turn.before_iff_not_before.mpr ⟨hbefore, hturn⟩
    obtain rfl := Option.some_inj.mp (hf'.symm.trans (hprogress.waiting i j f hf hwaits))
    exact rel_leadsTo_refl ..

end Agenda

/-! ### Programs -/

namespace Program

variable {p : Program}

/-- The nodes that an analysis may touch, each in the body of its class: those that are reached from
the root of a feature. -/
def Touched (p : Program) (registry : Registry) (x : ExprId) (k : ClassId) : Prop :=
  ∃ i j f root, featureAt? p.classes i j = some f ∧ k = Analysis.classId i ∧ f.root = some root ∧
    p.exprs.Reachable registry root x

theorem Prepares.touched {w : Agenda (Option ExprId)} (hw : p.Prepares w) {i j : Nat} {f : Feature}
    (hf : featureAt? w.classes i j = some f) {x : ExprId} {k : ClassId} (h : w.touches i f x k) :
    p.Touched w.registry x k := by
  obtain ⟨hk, root, hroot, hreach⟩ := h
  obtain ⟨f', hf', hbare⟩ := exists_featureAt?_of_bare hw.classes hf
  refine ⟨i, j, f', root, hf', hk, ?_, hw.base ▸ hreach⟩
  rw [← Feature.root_bare, hbare, Feature.root_bare, hroot]

/-- Whichever way an analysis ends, it has annotated and wrapped, and nothing else. Declarations
keep everything but annotations and roots. The slot of a root holds what it held, or a cast around
it. If any node was touched, the declarations were accepted, and the nodes are annotated by their
registry. -/
theorem annotates_analyse (hforest : p.checkForest = .ok ()) :
    p.analyse.program.classes.map Class.core = p.classes.map Class.core ∧
    (∀ i j f f', featureAt? p.classes i j = some f →
      featureAt? p.analyse.program.classes i j = some f' →
      Option.Rel (p.analyse.program.exprs.LeadsTo p.exprs.size) f'.root f.root) ∧
    (p.analyse.program.exprs = p.exprs ∨ ∃ registry, p.declarations = .ok registry ∧
      p.exprs.Annotates registry (p.Touched registry) p.analyse.program.exprs) := by
  refine ⟨p.map_core_analyse, ?_⟩
  cases course hforest with
  | early failure hcause hresult hexprs hclasses =>
    refine ⟨fun i j f f' hf hf' => ?_, .inl hexprs⟩
    obtain ⟨f'', hf'', hbare⟩ := exists_featureAt?_of_bare hclasses hf'
    obtain rfl := Option.some_inj.mp (hf.symm.trans hf'')
    rw [← Feature.root_bare f', ← hbare, Feature.root_bare]
    exact Agenda.rel_leadsTo_refl ..
  | halted failure w hw hresult h =>
    have hslots : ∀ i j f f', featureAt? p.classes i j = some f →
        featureAt? p.analyse.program.classes i j = some f' →
        Option.Rel (p.analyse.program.exprs.LeadsTo p.exprs.size) f'.root f.root := by
      intro i j f f' hf hf'
      obtain ⟨g, hg, hbare⟩ := exists_featureAt?_of_bare hw.classes.symm hf
      rw [← Feature.root_bare f, ← hbare, Feature.root_bare, ← hw.base]
      exact h.rel_root hg hf'
    obtain ⟨i, j, f, f', -, -, -, hprogress⟩ := h
    refine ⟨hslots, .inr ⟨w.registry, hw.declarations, ?_⟩⟩
    rw [← hw.base]
    apply hprogress.annotates.mono
    rintro x k ⟨i', j', g, hg, -, htouches⟩
    exact hw.touched hg htouches
  | finished w hw hresult h =>
    refine ⟨fun i j f f' hf hf' => ?_, .inr ⟨w.registry, hw.declarations, ?_⟩⟩
    · obtain ⟨g, hg, hbare⟩ := exists_featureAt?_of_bare hw.classes.symm hf
      obtain ⟨f'', hview, hfinished⟩ := h.finished i j g hg trivial
      obtain rfl := Option.some_inj.mp (hf'.symm.trans hview)
      rw [← Feature.root_bare f, ← hbare, Feature.root_bare, ← hw.base]
      exact hfinished.rel_root
    · rw [← hw.base]
      apply h.annotates.mono
      rintro x k ⟨i', j', g, hg, -, htouches⟩
      exact hw.touched hg htouches

/-- A text that is set to numbers is given casts, and its nodes are annotated. -/
theorem annotates_analyse_recorder :
    recorder.checkForest = .ok () ∧ recorder.analyse.program.exprs ≠ recorder.exprs ∧
      ∃ registry, recorder.declarations = .ok registry ∧
        recorder.exprs.Annotates registry (recorder.Touched registry)
          recorder.analyse.program.exprs := by
  have hforest : recorder.checkForest = .ok () := by decide +kernel
  have hchanged : recorder.analyse.program.exprs ≠ recorder.exprs := by decide +kernel
  exact ⟨hforest, hchanged, (annotates_analyse hforest).2.2.resolve_left hchanged⟩

end Program

end Lcpl
