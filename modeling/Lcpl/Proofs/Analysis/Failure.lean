import Lcpl.Proofs.Analysis.Annotated
import Lcpl.Proofs.Term.Reports

/-!
# What a failed analysis leaves

An analysis that fails has done a part of its work, and this part is done as well as by an analysis
that ends well. Features that were checked before the failure are finished, those behind it are as
they were, and the feature at which it happened keeps its slot. If the rule of some node has
reported the failure, that node and those above it keep their expressions and types.

## Main definitions

* `Program.FinishedAt`, `Program.UntouchedAt` — a feature in front of a failure, and one behind it
* `Program.FailsAt` — the reasons for which the check of a feature fails
* `Program.StoppedAt` — what is left of a program whose analysis fails at a feature

## Main results

* `Program.analyse_of_error` — what a failed analysis leaves
-/

namespace Lcpl

variable {ι : Type}

/-- What decides on the check of a feature, and on its turn, is not changed by annotations. -/
theorem Feature.eq_of_bare {f g : Feature} (h : f.bare = g.bare) (registry : Registry)
    (id : ClassId) :
    f.root = g.root ∧ f.setting? registry id = g.setting? registry id ∧
      f.admission registry id = g.admission registry id ∧ ∀ i j, f.turn i j = g.turn i j := by
  have hview (f : Feature) : f.bare.root = f.root ∧
      f.bare.setting? registry id = f.setting? registry id ∧
      f.bare.admission registry id = f.admission registry id ∧
        ∀ i j, f.bare.turn i j = f.turn i j := by
    rcases f with m | a
    · exact ⟨rfl, rfl, rfl, fun _ _ => rfl⟩
    · exact ⟨rfl, rfl, rfl, fun _ _ => rfl⟩
  obtain ⟨hroot, hsetting, hadmission, hturn⟩ := hview f
  obtain ⟨hroot', hsetting', hadmission', hturn'⟩ := hview g
  rw [← hroot, ← hroot', ← hsetting, ← hsetting', ← hadmission, ← hadmission', h]
  refine ⟨rfl, rfl, rfl, fun i j => ?_⟩
  rw [← hturn, ← hturn', h]

/-- If the elaboration of a root fails, it leaves what the elaboration of its term leaves. It fails
because of the term, or because its value cannot be used. -/
theorem Expectation.elaborate_eq_error {Γ : Context} {made : ι} {e : Expectation} {t t' : Term ι}
    {failure : Failure} (h : e.elaborate Γ made t = (.error failure, t')) :
    t' = (t.elaborate Γ made .empty).term ∧ ((t.elaborate Γ made .empty).result = .error failure ∨
      ∃ ty, (t.elaborate Γ made .empty).result = .ok ty) := by
  unfold elaborate at h
  rcases hrun : (e.visit Γ made (t.elaborate Γ made .empty)).runFrom [] with ⟨failure' | u, w⟩
  · rw [hrun] at h
    obtain ⟨hfailure, rfl⟩ := Prod.mk.inj h
    obtain rfl := Except.error.inj hfailure
    refine ⟨rfl, ?_⟩
    -- where the term itself fails, the visit fails with it
    cases hresult : (t.elaborate Γ made .empty).result with
    | ok ty => exact .inr ⟨ty, rfl⟩
    | error failure =>
      have hpart := Visit.runFrom_part (t.elaborate Γ made .empty) []
      rw [hresult] at hpart
      rw [visit, Step.runFrom_bind_of_error hpart] at hrun
      obtain rfl := Except.error.inj (Prod.mk.inj hrun).1
      exact .inl rfl
  · rw [hrun] at h
    cases h

namespace Program

variable (p : Program) (registry : Registry)

/-- The feature at a place is finished. Its check, run by itself on the program as it was given,
succeeds, and what the analysis has put into its slot reads as what this check leaves. -/
def FinishedAt (i j : Nat) (f : Feature) : Prop :=
  f.admission registry (Analysis.classId i) = .ok () ∧
    ∃ f', featureAt? p.analyse.program.classes i j = some f' ∧
      (f.root = none ∧ f'.root = none ∨
        ∃ Γ e root slot s root' t ids ids', f.root = some root ∧
          f.setting? registry (Analysis.classId i) = some (Γ, e) ∧
          (e.check Γ root).runFrom ⟨p.exprs, .empty, #[]⟩ = (.ok slot, s) ∧
          s.arena.Reads p.original? slot t ids ∧ f'.root = some root' ∧
          p.analyse.program.exprs.Reads p.original? root' t ids')

/-- The feature at a place, and every node below its root, is as it was. -/
def UntouchedAt (i j : Nat) (f : Feature) : Prop :=
  (∃ f', featureAt? p.analyse.program.classes i j = some f' ∧ f'.root = f.root) ∧
    ∀ root x, f.root = some root → p.exprs.Below root x →
      p.analyse.program.exprs.get? x = p.exprs.get? x

/-- Why the check of a feature fails. -/
inductive FailsAt (failure : Failure) (i : Nat) (f : Feature) : Prop where
  /-- It does not go with the features of the ancestors. -/
  | refused (hadmission : f.admission registry (Analysis.classId i) = .error failure)
  /-- Its root is accepted, and the value cannot be converted to the declared type. -/
  | unconverted {Γ e root t ids ty}
      (hadmission : f.admission registry (Analysis.classId i) = .ok ())
      (hroot : f.root = some root)
      (hsetting : f.setting? registry (Analysis.classId i) = some (Γ, e))
      (hread : p.exprs.Reads p.original? root t ids)
      (hresult : (t.elaborate Γ none .empty).result = .ok ty)
      (helaborate : (e.elaborate Γ none t).1 = .error failure)
  /-- The rule of a node reports the failure. The nodes from the root down to this node keep their
  expressions and types. -/
  | reported {Γ e root t ids} {path : List ExprId}
      (hadmission : f.admission registry (Analysis.classId i) = .ok ())
      (hroot : f.root = some root)
      (hsetting : f.setting? registry (Analysis.classId i) = some (Γ, e))
      (hread : p.exprs.Reads p.original? root t ids)
      (hreports : Term.Reports Γ none failure .empty t (path.map some))
      (hkept : ∀ x ∈ path, p.analyse.program.exprs.get? x = p.exprs.get? x)

/-- The analysis has failed at the feature at a place. -/
structure StoppedAt (failure : Failure) (i j : Nat) (f : Feature) : Prop where
  slot : ∃ f', featureAt? p.analyse.program.classes i j = some f' ∧ f'.root = f.root
  cause : p.FailsAt registry failure i f
  earlier : ∀ i' j' g, featureAt? p.classes i' j' = some g → (g.turn i' j').Before (f.turn i j) →
    p.FinishedAt registry i' j' g
  later : ∀ i' j' g, featureAt? p.classes i' j' = some g → (f.turn i j).Before (g.turn i' j') →
    p.UntouchedAt i' j' g

variable {p}

theorem original?_of_lt {x : ExprId} (hx : x.index < p.exprs.size) : p.original? x = some x :=
  if_pos hx

theorem eq_of_original? {x y : ExprId} (hx : x.index < p.exprs.size)
    (h : p.original? x = p.original? y) : x = y := by
  rw [original?_of_lt hx, original?] at h
  split at h
  · exact Option.some_inj.mp h
  · cases h

namespace Prepares

variable {w : Agenda (Option ExprId)} {i j : Nat} {f g f' : Feature} {failure : Failure}

/-- The root of a feature reads as a tree, in a way that the analysis can rely on. -/
theorem reads_root (hw : p.Prepares w) (hf : featureAt? w.classes i j = some f) {root : ExprId}
    {t : Term (Option ExprId)} {ids : List ExprId} (hroot : f.root = some root)
    (hread : p.exprs.Reads p.original? root t ids) : t.Named w.naming ∧ ids.Nodup := by
  obtain ⟨own, hraw, hnodup⟩ := w.raw hf
  rcases hraw.rooted with ⟨hnone, -⟩ | ⟨root', t', hroot', hread', hnamed⟩
  · rw [hroot] at hnone
    cases hnone
  · obtain rfl := Option.some_inj.mp (hroot'.symm.trans hroot)
    rw [hw.base, hw.mark] at hread'
    obtain ⟨rfl, rfl⟩ := hread.unique hread'
    exact ⟨hnamed, hnodup⟩

theorem finishedAt (hw : p.Prepares w) (hf : featureAt? w.classes i j = some f)
    (hbare : f.bare = g.bare) (hf' : featureAt? p.analyse.program.classes i j = some f')
    (h : w.Finished i p.analyse.program.exprs f f') : p.FinishedAt w.registry i j g := by
  obtain ⟨hroots, hsettings, hadmissions, -⟩ :=
    Feature.eq_of_bare hbare w.registry (Analysis.classId i)
  rw [FinishedAt, ← hroots, ← hsettings, ← hadmissions]
  cases h with
  | plain hadmission hroot => exact ⟨hadmission, f, hf', .inl ⟨hroot, hroot⟩⟩
  | @rooted name root Γ e t t' ids root' ids' hadmission hname hroot hsetting hread helaborate
      hread' =>
    rw [hw.base, hw.mark] at hread
    rw [hw.mark] at hread'
    rw [hw.made] at helaborate
    have hnew : ∀ x : ExprId, p.exprs.size ≤ x.index → p.original? x = none :=
      fun x hx => if_neg (Nat.not_lt.mpr hx)
    -- a run on the program as it was given gives the term that was left here
    obtain ⟨-, hnodup⟩ := hw.reads_root hf hroot hread
    obtain ⟨b, log, slot, own, hrun, hreads, -⟩ := Expectation.exists_run hread hnodup hnew Γ e #[]
    rw [helaborate] at hrun hreads
    exact ⟨hadmission, _, hf',
      .inr ⟨Γ, e, root, slot, _, root', t', own, ids', hroot, hsetting, hrun, hreads,
        Feature.root_withRoot .., hread'⟩⟩

theorem failsAt (hw : p.Prepares w) (hf : featureAt? w.classes i j = some f)
    (hbare : f.bare = g.bare) (h : w.Stopped i failure p.analyse.program.exprs f f') :
    p.FailsAt w.registry failure i g := by
  obtain ⟨hroots, hsettings, hadmissions, -⟩ :=
    Feature.eq_of_bare hbare w.registry (Analysis.classId i)
  cases h with
  | refused hadmission => exact .refused (hadmissions ▸ hadmission)
  | @rooted name root Γ e t t' ids ids' hadmission hname hroot hsetting hread helaborate hread' =>
    rw [hw.base, hw.mark] at hread
    rw [hw.mark] at hread'
    rw [hw.made] at helaborate
    obtain ⟨hnamed, -⟩ := hw.reads_root hf hroot hread
    obtain ⟨hΓ, -⟩ := Feature.sound_setting w.coherent hname hsetting
    rw [hroots] at hroot
    rw [hsettings] at hsetting
    rw [hadmissions] at hadmission
    -- a node has failed, or the value of the root cannot be converted
    obtain ⟨rfl, hresult | ⟨ty, hresult⟩⟩ := Expectation.elaborate_eq_error helaborate
    · have hmade : (w.naming none).made := hw.made ▸ w.naming_made
      obtain ⟨path, hreports⟩ :=
        Term.exists_reports hΓ hmade hnamed Context.soundScopes_empty hresult
      obtain ⟨handles, rfl, hhandles⟩ := hreports.exists_handles hread hread'
        fun x hx y => eq_of_original? (hread.lt_size x hx)
      -- the nodes on the path were there before, so their marks are their handles
      have hmarks : handles.map p.original? = handles.map some :=
        List.map_congr_left fun x hx => original?_of_lt (hread.lt_size x (hhandles x hx).1)
      exact .reported hadmission hroot hsetting hread (hmarks ▸ hreports) fun x hx =>
        (hhandles x hx).2
    · exact .unconverted hadmission hroot hsetting hread hresult (by rw [helaborate])

/-- Where the check was stopped, and what it has left. -/
theorem exists_stoppedAt (hw : p.Prepares w)
    (h : w.Halted failure (featureAt? p.analyse.program.classes) p.analyse.program.exprs) :
    ∃ i j f, featureAt? p.classes i j = some f ∧ p.StoppedAt w.registry failure i j f := by
  obtain ⟨i, j, f, f', hf, hf', hstopped, hprogress⟩ := h
  obtain ⟨g, hg, hbare⟩ := exists_featureAt?_of_bare hw.classes hf
  obtain ⟨hroots, -, -, hturn⟩ := Feature.eq_of_bare hbare w.registry (Analysis.classId i)
  refine ⟨i, j, g, hg, ⟨f', hf', hstopped.root_eq.trans hroots.symm⟩,
    hw.failsAt hf hbare.symm hstopped, ?_, ?_⟩
  · intro i' j' g' hg' hbefore
    obtain ⟨x, hx, hbare'⟩ := exists_featureAt?_of_bare hw.classes.symm hg'
    obtain ⟨-, -, -, hturn'⟩ := Feature.eq_of_bare hbare' w.registry (Analysis.classId i')
    rw [hturn, ← hturn'] at hbefore
    obtain ⟨x', hx', hfinished⟩ := hprogress.finished i' j' x hx hbefore
    exact hw.finishedAt hx hbare' hx' hfinished
  · intro i' j' g' hg' hbefore
    obtain ⟨x, hx, hbare'⟩ := exists_featureAt?_of_bare hw.classes.symm hg'
    obtain ⟨hroots', -, -, hturn'⟩ := Feature.eq_of_bare hbare' w.registry (Analysis.classId i')
    rw [hturn, ← hturn'] at hbefore
    refine ⟨⟨x, hprogress.waiting i' j' x hx hbefore, hroots'⟩, ?_⟩
    intro root y hroot hy
    rw [← hroots'] at hroot
    rw [← hw.base] at hy ⊢
    exact hprogress.annotates.get?_eq (Agenda.lt_size_of_below hx hroot hy)
      (Agenda.not_touched_of_waits hx hbefore hroot hy)

end Prepares

/-- What a failed analysis leaves. If the declarations are rejected, no node has been touched. If a
feature is, those in front of it are finished, those behind it are as they were, and the feature
keeps its slot, and the nodes on the way to the one that has reported the failure. If only the entry
point is missing, all features are finished. -/
theorem analyse_of_error (hforest : p.checkForest = .ok ()) {failure : Failure}
    (h : p.analyse.result = .error failure) :
    ((p.declarations = .error failure ∨
        ∃ registry, p.declarations = .ok registry ∧ registry.checkCycles = .error failure) ∧
      p.analyse.program.exprs = p.exprs) ∨
    ∃ registry, p.declarations = .ok registry ∧ registry.checkCycles = .ok () ∧
      ((∃ i j f, featureAt? p.classes i j = some f ∧ p.StoppedAt registry failure i j f) ∨
        registry.checkEntry p.line = .error failure ∧
          ∀ i j f, featureAt? p.classes i j = some f → p.FinishedAt registry i j f) := by
  cases course hforest with
  | early failure' hcause hresult hexprs =>
    obtain rfl := Except.error.inj (hresult.symm.trans h)
    exact .inl ⟨hcause, hexprs⟩
  | halted failure' w hw hresult hhalted =>
    obtain rfl := Except.error.inj (hresult.symm.trans h)
    exact .inr ⟨w.registry, hw.declarations, hw.acyclic, .inl (hw.exists_stoppedAt hhalted)⟩
  | finished w hw hresult hprogress =>
    refine .inr ⟨w.registry, hw.declarations, hw.acyclic, .inr ⟨?_, ?_⟩⟩
    · rw [hresult] at h
      cases hentry : w.registry.checkEntry p.line with
      | ok =>
        rw [hentry] at h
        cases h
      | error failure' =>
        rw [hentry] at h
        exact congrArg _ (Except.error.inj h)
    · intro i j f hf
      obtain ⟨g, hg, hbare⟩ := exists_featureAt?_of_bare hw.classes.symm hf
      obtain ⟨g', hg', hfinished⟩ := hprogress.finished i j g hg trivial
      exact hw.finishedAt hg hbare hg' hfinished

/-- A method that adds something unknown to a text. The text stands behind the method, and is
checked in front of it. -/
def interrupted : Program where
  line := 1
  classes := [
    { line := 1, name := "Main", parent := none, recordedParent := none
      features := [
        .method (.declared 2 "main" [] "String" (some ⟨3⟩)),
        .attribute (.declared 5 "last" "String" (some ⟨0⟩))] }]
  exprs := ⟨#[
    ⟨5, .intConstant 7, none⟩,
    ⟨3, .symbol "last" none, none⟩,
    ⟨3, .symbol "nowhere" none, none⟩,
    ⟨3, .addition ⟨1⟩ ⟨2⟩, none⟩]⟩
  builtins := []

/-- The analysis stops at the method. By then the text has its cast. -/
theorem analyse_of_error_interrupted :
    interrupted.checkForest = .ok () ∧ ∃ registry failure f g,
      interrupted.analyse.result = .error failure ∧
      featureAt? interrupted.classes 0 0 = some f ∧ featureAt? interrupted.classes 0 1 = some g ∧
      interrupted.StoppedAt registry failure 0 0 f ∧ interrupted.FinishedAt registry 0 1 g := by
  have hforest : interrupted.checkForest = .ok () := by decide +kernel
  have hdeclared : interrupted.declarations.toBool = true := by decide +kernel
  have hfailed : interrupted.analyse.result.toBool = false := by decide +kernel
  have hacyclic : interrupted.declarations.bind Registry.checkCycles = .ok () := by decide +kernel
  have hentry : (interrupted.declarations.bind fun r => r.checkEntry interrupted.line) =
      .ok () := by
    decide +kernel
  have hslot : (featureAt? interrupted.analyse.program.classes 0 1).map Feature.root =
      some (some ⟨4⟩) := by decide +kernel
  obtain ⟨failure, hfailure⟩ : ∃ failure, interrupted.analyse.result = .error failure := by
    cases hresult : interrupted.analyse.result with
    | error failure => exact ⟨failure, rfl⟩
    | ok registry => simp [hresult, Except.toBool] at hfailed
  obtain ⟨registry, hregistry⟩ : ∃ registry, interrupted.declarations = .ok registry := by
    cases hresult : interrupted.declarations with
    | error failure => simp [hresult, Except.toBool] at hdeclared
    | ok registry => exact ⟨registry, rfl⟩
  rw [hregistry, Except.bind] at hacyclic hentry
  rcases analyse_of_error hforest hfailure with ⟨hcause, -⟩ | ⟨registry', hdeclarations, -, hend⟩
  · rw [hregistry] at hcause
    simp [hacyclic] at hcause
  · obtain rfl := Except.ok.inj (hregistry.symm.trans hdeclarations)
    simp only [hentry, reduceCtorEq, false_and, or_false] at hend
    obtain ⟨i, j, f, hf, hstopped⟩ := hend
    -- the slot of the text has changed, so it is not the text
    rcases i with _ | i
    · rcases j with _ | _ | j
      · exact ⟨hforest, registry, failure, f, _, hfailure, hf, rfl, hstopped,
          hstopped.earlier 0 1 _ rfl (by cases hf; exact .inr ⟨rfl, .inl Nat.zero_lt_one⟩)⟩
      · obtain ⟨f', hf', hroot⟩ := hstopped.slot
        rw [hf', Option.map_some, hroot] at hslot
        cases hf
        cases hslot
      · cases hf
    · cases hf

end Program

end Lcpl
