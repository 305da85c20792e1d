import Lcpl.Proofs.Analysis.Phases
import Lcpl.Proofs.Body.Annotation

/-!
# How far the check of the bodies has come

Features are checked in a fixed order: class by class, the attributes of a class before its methods,
and those of one kind as they are declared. So at any time there are features that are finished, and
all that comes behind them is as it was in the beginning. A failure stops the check at one feature,
and leaves the others in one of these two states.

## Main definitions

* `Turn`, `Feature.turn` — when a feature is checked
* `Agenda` — the features in front of the check, no two of which have a node together
* `Agenda.Finished`, `Agenda.Stopped` — a feature behind its check, after a success and after a
  failure
* `Agenda.Progress` — some features are finished, and others wait

## Main results

* `Agenda.exists_check` — the check of a single feature
* `Agenda.Progress.check` — what it means for all of them
* `Agenda.progress_checkClasses` — the check of all classes
-/

namespace Lcpl

variable {ι : Type}

/-! ### The order of the features -/

/-- The feature at a position in the class at a position. -/
def featureAt? (classes : List Class) (i j : Nat) : Option Feature :=
  classes[i]?.bind fun c => c.features[j]?

/-- A time at which a feature may be checked: by the position of the class, the pass over the class,
and the position in the class. -/
structure Turn where
  outer : Nat
  pass : Nat
  inner : Nat

/-- The first turn comes before the second. -/
def Turn.Before (s t : Turn) : Prop :=
  s.outer < t.outer ∨ s.outer = t.outer ∧ (s.pass < t.pass ∨ s.pass = t.pass ∧ s.inner < t.inner)

namespace Turn

theorem before_succ_iff {t : Turn} {i pass j : Nat} :
    t.Before ⟨i, pass, j + 1⟩ ↔ t.Before ⟨i, pass, j⟩ ∨ t = ⟨i, pass, j⟩ := by
  obtain ⟨outer, pass', inner⟩ := t
  simp only [Before, mk.injEq]
  omega

theorem before_iff_not_before {s t : Turn} : s.Before t ↔ ¬ t.Before s ∧ t ≠ s := by
  obtain ⟨outer, pass, inner⟩ := s
  obtain ⟨outer', pass', inner'⟩ := t
  simp only [Before, ne_eq, mk.injEq]
  omega

end Turn

namespace Feature

/-- The pass over its class in which a feature is checked. -/
def pass : Feature → Nat
  | .attribute _ => 0
  | .method _ => 1

theorem isMethod_of_pass_zero {f : Feature} (h : f.pass = 0) : f.isMethod = false := by
  rcases f with m | a
  · cases h
  · rfl

theorem isMethod_of_pass_one {f : Feature} (h : f.pass = 1) : f.isMethod = true := by
  rcases f with m | a
  · rfl
  · cases h

/-- When the feature at a place is checked. -/
def turn (i j : Nat) (f : Feature) : Turn := ⟨i, f.pass, j⟩

end Feature

/-- The features in front of the check. The root of each reads as a tree, and no two have a node
together. -/
structure Agenda (ι : Type) extends Bodies ι where
  classes : List Class
  base : Arena
  size_eq : size = base.size
  underObject : registry.UnderObject
  raw : ∀ {i j f}, featureAt? classes i j = some f →
    ∃ ids, toBodies.Raw (Analysis.classId i) base f ids ∧ ids.Nodup
  apart : ∀ {i j f root i' j' f' root'}, featureAt? classes i j = some f →
    featureAt? classes i' j' = some f' → ¬ (i = i' ∧ j = j') → f.root = some root →
    f'.root = some root' → ∀ x, base.Below root x → ¬ base.Below root' x

namespace Agenda

variable (w : Agenda ι)

/-- A feature as its check leaves it after a success. Its slot holds the root, or a cast around it,
and reads as what elaboration makes of the tree that was there before. -/
inductive Finished (i : Nat) (a : Arena) (f : Feature) : Feature → Prop where
  | plain (hadmission : f.admission w.registry (Analysis.classId i) = .ok ())
      (hroot : f.root = none) : Finished i a f f
  | rooted {name root Γ e t t' ids root' ids'}
      (hadmission : f.admission w.registry (Analysis.classId i) = .ok ())
      (hname : w.registry.name? (Analysis.classId i) = some name) (hroot : f.root = some root)
      (hsetting : f.setting? w.registry (Analysis.classId i) = some (Γ, e))
      (hread : w.base.Reads w.mark root t ids) (helaborate : e.elaborate Γ w.made t = (.ok (), t'))
      (hread' : a.Reads w.mark root' t' ids')
      (hids' : ∀ x ∈ ids', x ∈ ids ∨ w.base.size ≤ x.index)
      (hleads : a.LeadsTo w.base.size root' root) :
      Finished i a f ((f.prepared name).withRoot root')

/-- A feature as its check leaves it after a failure. It keeps its slot. -/
inductive Stopped (i : Nat) (failure : Failure) (a : Arena) (f : Feature) : Feature → Prop where
  | refused (hadmission : f.admission w.registry (Analysis.classId i) = .error failure) :
      Stopped i failure a f f
  | rooted {name root Γ e t t' ids ids'}
      (hadmission : f.admission w.registry (Analysis.classId i) = .ok ())
      (hname : w.registry.name? (Analysis.classId i) = some name) (hroot : f.root = some root)
      (hsetting : f.setting? w.registry (Analysis.classId i) = some (Γ, e))
      (hread : w.base.Reads w.mark root t ids)
      (helaborate : e.elaborate Γ w.made t = (.error failure, t'))
      (hread' : a.Reads w.mark root t' ids') :
      Stopped i failure a f (f.prepared name)

/-- The nodes that the check of a feature touches. -/
def touches (i : Nat) (f : Feature) (x : ExprId) (k : ClassId) : Prop :=
  k = Analysis.classId i ∧ ∃ root, f.root = some root ∧ w.base.Reachable w.registry root x

/-- The features whose turn is `done` are finished, those whose turn `waits` are as they were. Only
nodes of features that do not wait have been touched. -/
structure Progress (done waits : Turn → Prop) (view : Nat → Nat → Option Feature) (a : Arena) :
    Prop where
  annotates : w.base.Annotates w.registry
    (fun x k => ∃ i j f, featureAt? w.classes i j = some f ∧ ¬ waits (f.turn i j) ∧
      w.touches i f x k) a
  finished : ∀ i j f, featureAt? w.classes i j = some f → done (f.turn i j) →
    ∃ f', view i j = some f' ∧ w.Finished i a f f'
  waiting : ∀ i j f, featureAt? w.classes i j = some f → waits (f.turn i j) → view i j = some f
  domain : ∀ i j, (view i j).isSome = (featureAt? w.classes i j).isSome

/-- Everything in front of a turn is finished, and everything else waits. -/
def At (now : Turn) : (Nat → Nat → Option Feature) → Arena → Prop :=
  w.Progress (fun t => t.Before now) fun t => ¬ t.Before now

/-- The check was stopped at a feature. Everything in front of it is finished, and everything behind
it waits. -/
def Halted (failure : Failure) (view : Nat → Nat → Option Feature) (a : Arena) : Prop :=
  ∃ i j f f', featureAt? w.classes i j = some f ∧ view i j = some f' ∧ w.Stopped i failure a f f' ∧
    w.Progress (fun t => t.Before (f.turn i j)) (fun t => (f.turn i j).Before t) view a

variable {w} {i j : Nat} {f f' : Feature} {a c : Arena} {failure : Failure}
variable {done waits : Turn → Prop} {view : Nat → Nat → Option Feature}

/-! ### A single feature -/

/-- The nodes below the root of a feature. -/
theorem lt_size_of_below (hf : featureAt? w.classes i j = some f) {root x : ExprId}
    (hroot : f.root = some root) (hx : w.base.Below root x) : x.index < w.base.size := by
  obtain ⟨ids, hraw, -⟩ := w.raw hf
  rcases hraw.rooted with ⟨hnone, -⟩ | ⟨root', t, hroot', hread, -⟩
  · rw [hroot] at hnone
    cases hnone
  · obtain rfl := Option.some_inj.mp (hroot'.symm.trans hroot)
    exact hread.lt_size x (hread.mem_of_below hx)

/-- The check of a feature, in an arena where the nodes of the feature are as they were. -/
theorem exists_check (hf : featureAt? w.classes i j = some f) (hsize : w.base.size ≤ a.size)
    (hsame : ∀ root x, f.root = some root → w.base.Below root x → a.get? x = w.base.get? x)
    (log : Array Event) :
    ∃ c f' log', a.Annotates w.registry (w.touches i f) c ∧
      ((f.check w.registry (Analysis.classId i)).runFrom (⟨a, log⟩, f) = (.ok (), ⟨c, log'⟩, f') ∧
          w.Finished i c f f' ∨
        ∃ failure, (f.check w.registry (Analysis.classId i)).runFrom (⟨a, log⟩, f) =
            (.error failure, ⟨c, log'⟩, f') ∧ w.Stopped i failure c f f') := by
  obtain ⟨ids, hraw, hnodup⟩ := w.raw hf
  cases hadmission : f.admission w.registry (Analysis.classId i) with
  | error failure =>
    exact ⟨a, f, log, .refl .., .inr ⟨failure, Feature.runFrom_check_of_error hadmission,
      .refused hadmission⟩⟩
  | ok =>
    rcases hraw.rooted with ⟨hroot, rfl⟩ | ⟨root, t, hroot, hread, hnamed⟩
    · exact ⟨a, f, log, .refl .., .inl ⟨Feature.runFrom_check_none hadmission hroot,
        .plain hadmission hroot⟩⟩
    · obtain ⟨name, hname⟩ := hraw.known.className
      obtain ⟨Γ, e, hsetting⟩ := Feature.exists_setting hraw.known.declares
      have hΓ := Feature.context_of_setting? hsetting
      -- the tree is still there, though the arena may have grown since
      have hsame : ∀ x ∈ ids, a.get? x = w.base.get? x :=
        fun x hx => hsame root x hroot (hread.mem_iff_below.mp hx)
      have hread' := hread.of_get? hsame
      have hunder : Γ.registry.UnderObject := hΓ.1 ▸ w.underObject
      have hnew : ∀ x : ExprId, a.size ≤ x.index → w.mark x = w.made :=
        fun x hx => w.mark_new x (w.size_eq.le.trans (hsize.trans hx))
      obtain ⟨c, log', root', ids', hrun, hreads, hgrows, -, hkept⟩ :=
        Expectation.exists_run hread' hnodup hnew Γ e log
      have hensures := Expectation.annotates_check hread' hnodup hunder e
      have htouches : Body.touches Γ a root = w.touches i f := by
        funext x k
        simp [Body.touches, touches, hΓ.1, hΓ.2, hroot, hread.reachable_iff hsame]
      rw [htouches, hΓ.1] at hensures
      have hcheck := Feature.runFrom_check_some hadmission hroot hsetting hname hrun
      have hids' : ∀ x ∈ ids', x ∈ ids ∨ w.base.size ≤ x.index :=
        fun x hx => (hgrows.old_or_new x hx).imp_right hsize.trans
      rcases hresult : e.elaborate Γ w.made t with ⟨failure | ⟨⟩, t'⟩
      · -- the root keeps its slot
        obtain rfl : root' = root := hkept (by rw [hresult]; intro hok; cases hok)
        rw [hresult] at hrun hcheck hreads
        exact ⟨c, f.prepared name, log', hensures.error rfl hrun, .inr ⟨failure, hcheck,
          .rooted hadmission hname hroot hsetting hread hresult hreads⟩⟩
      · rw [hresult] at hrun hcheck hreads
        obtain ⟨hannotates, hleads⟩ := hensures.ok rfl hrun
        refine ⟨c, (f.prepared name).withRoot root', log', hannotates, .inl ⟨hcheck, ?_⟩⟩
        refine .rooted hadmission hname hroot hsetting hread hresult hreads hids' ?_
        exact hleads.imp_right fun h => ⟨hsize.trans h.1, h.2⟩

/-! ### All features -/

/-- A finished feature stays finished as long as its nodes stay. -/
theorem Finished.of_get? (h : w.Finished i a f f')
    (hget : ∀ x, x.index < a.size →
      (w.base.size ≤ x.index ∨ ∃ root, f.root = some root ∧ w.base.Below root x) →
      c.get? x = a.get? x) : w.Finished i c f f' := by
  cases h with
  | plain hadmission hroot => exact .plain hadmission hroot
  | @rooted name root Γ e t t' ids root' ids' hadmission hname hroot hsetting hread
      helaborate hread'
      hids' hleads =>
    have hsame : ∀ x ∈ ids', c.get? x = a.get? x := by
      intro x hx
      apply hget x (hread'.lt_size x hx)
      rcases hids' x hx with hold | hnew
      · exact .inr ⟨root, hroot, hread.mem_iff_below.mp hold⟩
      · exact .inl hnew
    refine .rooted hadmission hname hroot hsetting hread helaborate (hread'.of_get? hsame) hids' ?_
    refine hleads.imp_right ?_
    rintro ⟨hle, line, typeName, type, hcast⟩
    exact ⟨hle, line, typeName, type, (hsame root' hread'.mem_self).trans hcast⟩

/-- The view with another feature at one place. -/
def put (view : Nat → Nat → Option Feature) (i j : Nat) (f : Feature) (i' j' : Nat) :
    Option Feature :=
  if i' = i ∧ j' = j then some f else view i' j'

theorem put_of_ne {i' j' : Nat} (h : ¬ (i' = i ∧ j' = j)) : put view i j f i' j' = view i' j' :=
  if_neg h

/-- What the check of a feature touches has not been touched while the feature was waiting. -/
theorem not_touched_of_waits (hf : featureAt? w.classes i j = some f) (hwaits : waits (f.turn i j))
    {root x : ExprId} (hroot : f.root = some root) (hx : w.base.Below root x) (k : ClassId) :
    ¬ ∃ i j f, featureAt? w.classes i j = some f ∧ ¬ waits (f.turn i j) ∧ w.touches i f x k := by
  rintro ⟨i', j', g, hg, hnot, -, root', hroot', hreach⟩
  by_cases hplace : i = i' ∧ j = j'
  · obtain ⟨rfl, rfl⟩ := hplace
    obtain rfl := Option.some_inj.mp (hf.symm.trans hg)
    exact hnot hwaits
  · exact w.apart hf hg hplace hroot hroot' x hx hreach.isBelow

/-- The check of a feature changes no node of another feature, and none that was made before. -/
theorem get?_eq_of_annotates (hf : featureAt? w.classes i j = some f) {i' j' : Nat} {g : Feature}
    (hg : featureAt? w.classes i' j' = some g) (hplace : ¬ (i' = i ∧ j' = j))
    (h : a.Annotates w.registry (w.touches i f) c) {x : ExprId} (hlt : x.index < a.size)
    (hx : w.base.size ≤ x.index ∨ ∃ root, g.root = some root ∧ w.base.Below root x) :
    c.get? x = a.get? x := by
  apply h.get?_eq hlt
  rintro k ⟨-, root, hroot, hreach⟩
  rcases hx with hle | ⟨root', hroot', hbelow⟩
  · have := lt_size_of_below hf hroot hreach.isBelow
    omega
  · exact w.apart hg hf hplace hroot' hroot x hbelow hreach.isBelow

/-- The check of a feature that waits. It is finished afterwards, or it has stopped the check. In
either case the other features are as before. -/
theorem Progress.check (h : w.Progress done waits view a) (hf : featureAt? w.classes i j = some f)
    (hwaits : waits (f.turn i j)) (hdone : ¬ done (f.turn i j)) (log : Array Event) :
    ∃ c f' log',
      ((f.check w.registry (Analysis.classId i)).runFrom (⟨a, log⟩, f) = (.ok (), ⟨c, log'⟩, f') ∧
          w.Progress (fun t => done t ∨ t = f.turn i j) (fun t => waits t ∧ t ≠ f.turn i j)
            (put view i j f') c ∨
        ∃ failure, (f.check w.registry (Analysis.classId i)).runFrom (⟨a, log⟩, f) =
            (.error failure, ⟨c, log'⟩, f') ∧ w.Stopped i failure c f f' ∧
          w.Progress done (fun t => waits t ∧ t ≠ f.turn i j) (put view i j f') c) := by
  have hsame : ∀ root x, f.root = some root → w.base.Below root x → a.get? x = w.base.get? x := by
    intro root x hroot hx
    exact h.annotates.get?_eq (lt_size_of_below hf hroot hx)
      (not_touched_of_waits hf hwaits hroot hx)
  obtain ⟨c, f', log', hannotates, hrun⟩ := exists_check hf h.annotates.size_le hsame log
  -- features are told apart by their turns, and places by the features there
  have hother : ∀ {i' j' g}, featureAt? w.classes i' j' = some g → g.turn i' j' ≠ f.turn i j →
      ¬ (i' = i ∧ j' = j) := by
    rintro i' j' g hg hne ⟨rfl, rfl⟩
    obtain rfl := Option.some_inj.mp (hf.symm.trans hg)
    exact hne rfl
  -- this much holds whether the check succeeds or not
  have hprogress : w.Progress done (fun t => waits t ∧ t ≠ f.turn i j) (put view i j f') c := by
    refine ⟨(h.annotates.trans hannotates ?_).mono ?_, ?_, ?_, ?_⟩
    · rintro x k ⟨-, root, hroot, hreach⟩
      exact ⟨lt_size_of_below hf hroot hreach.isBelow,
        not_touched_of_waits hf hwaits hroot hreach.isBelow⟩
    · rintro x k (⟨i', j', g, hg, hnot, htouches⟩ | htouches)
      · exact ⟨i', j', g, hg, fun hwaits => hnot hwaits.1, htouches⟩
      · exact ⟨i, j, f, hf, fun hwaits => hwaits.2 rfl, htouches⟩
    · intro i' j' g hg hg'
      have hplace := hother hg fun heq => hdone (heq ▸ hg')
      obtain ⟨g', hview, hfinished⟩ := h.finished i' j' g hg hg'
      refine ⟨g', (put_of_ne hplace).trans hview, hfinished.of_get? ?_⟩
      intro x hlt hx
      exact get?_eq_of_annotates hf hg hplace hannotates hlt hx
    · intro i' j' g hg hg'
      rw [put_of_ne (hother hg hg'.2)]
      exact h.waiting i' j' g hg hg'.1
    · intro i' j'
      by_cases hplace : i' = i ∧ j' = j
      · obtain ⟨rfl, rfl⟩ := hplace
        rw [hf, put, if_pos ⟨rfl, rfl⟩]
        rfl
      · rw [put_of_ne hplace]
        exact h.domain i' j'
  refine ⟨c, f', log', ?_⟩
  rcases hrun with ⟨hrun, hfinished⟩ | ⟨failure, hrun, hstopped⟩
  · refine .inl ⟨hrun, hprogress.annotates, ?_, hprogress.waiting, hprogress.domain⟩
    intro i' j' g hg hg'
    by_cases hplace : i' = i ∧ j' = j
    · obtain ⟨rfl, rfl⟩ := hplace
      obtain rfl := Option.some_inj.mp (hf.symm.trans hg)
      exact ⟨f', if_pos ⟨rfl, rfl⟩, hfinished⟩
    · refine hprogress.finished i' j' g hg (hg'.resolve_right fun heq => hplace ?_)
      exact ⟨congrArg Turn.outer heq, congrArg Turn.inner heq⟩
  · exact .inr ⟨failure, hrun, hstopped, hprogress⟩

/-! ### Passes over a class -/

/-- Less may be said than is known. -/
theorem Progress.mono {done' waits' : Turn → Prop} (h : w.Progress done waits view a)
    (hdone : ∀ i j f, featureAt? w.classes i j = some f → done' (f.turn i j) → done (f.turn i j))
    (hwaits : ∀ i j f, featureAt? w.classes i j = some f → waits' (f.turn i j) →
      waits (f.turn i j)) : w.Progress done' waits' view a where
  annotates := by
    apply h.annotates.mono
    rintro x k ⟨i, j, f, hf, hnot, htouches⟩
    exact ⟨i, j, f, hf, fun h => hnot (hwaits i j f hf h), htouches⟩
  finished i j f hf hf' := h.finished i j f hf (hdone i j f hf hf')
  waiting i j f hf hf' := h.waiting i j f hf (hwaits i j f hf hf')
  domain := h.domain

theorem Finished.pass_eq (h : w.Finished i a f f') : f'.pass = f.pass := by
  cases h with
  | plain => rfl
  | rooted => rcases f with m | attr <;> rfl

/-- No turn lies between two times, so what is known at the one is known at the other. -/
theorem At.later {now later : Turn} (h : w.At now view a)
    (hlater : ∀ i j f, featureAt? w.classes i j = some f →
      ((f.turn i j).Before later ↔ (f.turn i j).Before now)) : w.At later view a :=
  h.mono (fun i j f hf => (hlater i j f hf).mp) fun i j f hf => (not_congr (hlater i j f hf)).mp

section Pass

variable {step : Step (Checking × Feature) Unit} {pass : Nat}

/-- One place of a pass. A feature that has no turn in this pass is left alone. -/
theorem At.place
    (hcheck : ∀ f : Feature, f.pass = pass → step = f.check w.registry (Analysis.classId i))
    (hskip : ∀ (f : Feature) (s : Checking), f.pass ≠ pass → step.runFrom (s, f) = (.ok (), s, f))
    (h : w.At ⟨i, pass, j⟩ view a) {x : Feature} (hx : view i j = some x) (log : Array Event) :
    Step.Ends (fun s x' => w.At ⟨i, pass, j + 1⟩ (put view i j x') s.arena)
      (fun failure s x' => w.Halted failure (put view i j x') s.arena)
      (step.runFrom (⟨a, log⟩, x)) := by
  obtain ⟨f, hf⟩ : ∃ f, featureAt? w.classes i j = some f := by
    rw [← Option.isSome_iff_exists, ← h.domain, hx]
    rfl
  by_cases hpass : f.pass = pass
  · -- the turn of the feature has come
    subst hpass
    have hnow : ¬ (f.turn i j).Before (f.turn i j) := by
      simp only [Turn.Before]
      omega
    obtain rfl := Option.some_inj.mp (hx.symm.trans (h.waiting i j f hf hnow))
    rw [hcheck x rfl]
    obtain ⟨c, f', log', ⟨hrun, hprogress⟩ | ⟨failure, hrun, hstopped, hprogress⟩⟩ :=
      Progress.check h hf hnow hnow log
    · rw [hrun]
      apply hprogress.mono
      · intro i' j' g hg hbefore
        exact Turn.before_succ_iff.mp hbefore
      · intro i' j' g hg hnot
        rwa [Turn.before_succ_iff, not_or] at hnot
    · rw [hrun]
      refine ⟨i, j, x, f', hf, if_pos ⟨rfl, rfl⟩, hstopped, hprogress.mono ?_ ?_⟩
      · exact fun i' j' g hg hbefore => hbefore
      · exact fun i' j' g hg hbefore => Turn.before_iff_not_before.mp hbefore
  · have hkind : x.pass = f.pass := by
      by_cases hbefore : (f.turn i j).Before ⟨i, pass, j⟩
      · obtain ⟨f', hview, hfinished⟩ := h.finished i j f hf hbefore
        obtain rfl := Option.some_inj.mp (hx.symm.trans hview)
        exact hfinished.pass_eq
      · obtain rfl := Option.some_inj.mp (hx.symm.trans (h.waiting i j f hf hbefore))
        rfl
    have hput : put view i j x = view := by
      funext i' j'
      by_cases hplace : i' = i ∧ j' = j
      · obtain ⟨rfl, rfl⟩ := hplace
        exact (if_pos ⟨rfl, rfl⟩).trans hx.symm
      · exact put_of_ne hplace
    rw [hskip x _ (hkind ▸ hpass), Step.Ends, hput]
    apply h.later
    intro i' j' g hg
    rw [Turn.before_succ_iff, or_iff_left]
    -- the feature at this place has another pass
    intro heq
    obtain ⟨rfl, hturn, rfl⟩ := Turn.mk.inj heq
    obtain rfl := Option.some_inj.mp (hf.symm.trans hg)
    exact hpass hturn

theorem featureAt?_set {classes : List Class} {c : Class} {features : List Feature}
    (hi : i < classes.length) (hj : j < features.length) :
    featureAt? (classes.set i { c with features := features.set j f }) =
      put (featureAt? (classes.set i { c with features })) i j f := by
  funext i' j'
  by_cases hi' : i' = i
  · subst hi'
    by_cases hj' : j' = j
    · subst hj'
      simp [featureAt?, put, hi, hj]
    · simp [featureAt?, put, hi, hj', List.getElem?_set_ne (Ne.symm hj')]
  · simp [featureAt?, put, hi', List.getElem?_set_ne (Ne.symm hi')]

/-- A pass over the features of a class. -/
theorem At.eachFeature
    (hcheck : ∀ f : Feature, f.pass = pass → step = f.check w.registry (Analysis.classId i))
    (hskip : ∀ (f : Feature) (s : Checking), f.pass ≠ pass → step.runFrom (s, f) = (.ok (), s, f))
    {classes : List Class} {c : Class} (hc : classes[i]? = some c)
    (h : w.At ⟨i, pass, 0⟩ (featureAt? classes) a) (log : Array Event) :
    Step.Ends (fun s c' => w.At ⟨i, pass + 1, 0⟩ (featureAt? (classes.set i c')) s.arena)
      (fun failure s c' => w.Halted failure (featureAt? (classes.set i c')) s.arena)
      ((Class.eachFeature step).runFrom (⟨a, log⟩, c)) := by
  have hi : i < classes.length := (List.getElem?_eq_some_iff.mp hc).1
  have hself : classes.set i c = classes := by
    obtain ⟨hi, rfl⟩ := List.getElem?_eq_some_iff.mp hc
    exact List.set_getElem_self hi
  let view (features : List Feature) := featureAt? (classes.set i { c with features })
  have hpass :
      Step.Ends (fun s features => w.At ⟨i, pass, c.features.length⟩ (view features) s.arena)
      (fun failure s features => w.Halted failure (view features) s.arena)
      (Step.eachFrom (fun _ => step) 0 c.features ⟨a, log⟩) := by
    apply Step.eachFrom_invariant
      (I := fun j s features => w.At ⟨i, pass, j⟩ (view features) (Checking.arena s))
    · intro j s features x h hx
      have hj : j < features.length := (List.getElem?_eq_some_iff.mp hx).1
      have hview : view features i j = some x := by
        simp [view, featureAt?, hi, hx]
      simp only [view, featureAt?_set hi hj]
      exact h.place hcheck hskip hview s.log
    · simpa only [view, hself] using h
  -- a pass ends behind the last feature, where no further turn of the pass lies
  have hlast : ∀ i' j' g, featureAt? w.classes i' j' = some g →
      ((g.turn i' j').Before ⟨i, pass + 1, 0⟩ ↔
        (g.turn i' j').Before ⟨i, pass, c.features.length⟩) := by
    intro i' j' g hg
    have hlt : i' = i → j' < c.features.length := by
      rintro rfl
      have hdomain := h.domain i' j'
      rw [hg, featureAt?, hc, Option.bind_some] at hdomain
      exact (List.getElem?_eq_some_iff.mp (Option.get_mem (by rw [hdomain]; rfl))).1
    simp only [Turn.Before, Feature.turn]
    omega
  rw [Class.runFrom_eachFeature]
  rcases hrun : Step.eachFrom (fun _ => step) 0 c.features ⟨a, log⟩ with ⟨failure | ⟨⟩, s, features⟩
  · rw [hrun] at hpass
    exact hpass
  · rw [hrun] at hpass
    exact hpass.later hlast

end Pass

/-! ### Classes -/

theorem runFrom_onAttribute_of_pass {registry : Registry} {id : ClassId} (f : Feature)
    (s : Checking) (h : f.pass ≠ 0) :
    (Feature.onAttribute (Analysis.checkAttribute registry id)).runFrom (s, f) =
      (.ok (), s, f) := by
  rcases f with m | attr
  · rfl
  · exact absurd rfl h

theorem runFrom_onMethod_of_pass {registry : Registry} {id : ClassId} (f : Feature) (s : Checking)
    (h : f.pass ≠ 1) :
    (Feature.onMethod (Analysis.checkMethod registry id)).runFrom (s, f) = (.ok (), s, f) := by
  rcases f with m | attr
  · exact absurd rfl h
  · rfl

/-- The check of a class: one pass for its attributes, and one for its methods. -/
theorem At.checkClass {classes : List Class} {c : Class} (hc : classes[i]? = some c)
    (h : w.At ⟨i, 0, 0⟩ (featureAt? classes) a) (log : Array Event) :
    Step.Ends (fun s c' => w.At ⟨i + 1, 0, 0⟩ (featureAt? (classes.set i c')) s.arena)
      (fun failure s c' => w.Halted failure (featureAt? (classes.set i c')) s.arena)
      ((Analysis.checkClass w.registry (Analysis.classId i)).runFrom (⟨a, log⟩, c)) := by
  have hi : i < classes.length := (List.getElem?_eq_some_iff.mp hc).1
  have hattributes := h.eachFeature
    (fun f hf => (Feature.check_of_not_isMethod (Feature.isMethod_of_pass_zero hf)).symm)
    runFrom_onAttribute_of_pass hc (log.push (.bodyStarted c.name))
  rw [Analysis.checkClass, Analysis.classBy, Step.runFrom_bind_of_ok (Step.runFrom_modify ..)]
  rcases hrun : (Class.eachFeature
      (Feature.onAttribute (Analysis.checkAttribute w.registry (Analysis.classId i)))).runFrom
      (⟨a, log.push (.bodyStarted c.name)⟩, c) with ⟨failure | ⟨⟩, s, c'⟩
  · rw [hrun] at hattributes
    rw [Step.runFrom_bind_of_error hrun]
    exact hattributes
  · rw [hrun] at hattributes
    rw [Step.runFrom_bind_of_ok hrun]
    have hc' : (classes.set i c')[i]? = some c' := by simp [hi]
    have hmethods := At.eachFeature
      (fun f hf => (Feature.check_of_isMethod (Feature.isMethod_of_pass_one hf)).symm)
      runFrom_onMethod_of_pass hc' hattributes s.log
    rcases hrun' : (Class.eachFeature
        (Feature.onMethod (Analysis.checkMethod w.registry (Analysis.classId i)))).runFrom
        (s, c') with ⟨failure | ⟨⟩, s', c''⟩
    · rw [hrun', Step.Ends, List.set_set] at hmethods
      exact hmethods
    · -- there are two passes only, so the next turn is one of the next class
      rw [hrun', Step.Ends, List.set_set] at hmethods
      apply hmethods.later
      intro i' j' g hg
      have hpass : g.pass < 2 := by rcases g with m | attr <;> simp [Feature.pass]
      simp only [Turn.Before, Feature.turn]
      omega

/-- In front of the check, every feature waits. -/
theorem at_start (w : Agenda ι) : w.At ⟨0, 0, 0⟩ (featureAt? w.classes) w.base where
  annotates := .refl ..
  finished i j f _ hbefore := by
    simp only [Turn.Before] at hbefore
    omega
  waiting _ _ _ hf _ := hf
  domain _ _ := rfl

/-- The check of all classes. After a success every feature is finished. -/
theorem progress_checkClasses (w : Agenda ι) (log : Array Event) :
    Step.Ends
      (fun s classes => w.Progress (fun _ => True) (fun _ => False) (featureAt? classes) s.arena)
      (fun failure s classes => w.Halted failure (featureAt? classes) s.arena)
      (Step.eachFrom (fun k => Analysis.checkClass w.registry (Analysis.classId k)) 0 w.classes
        ⟨w.base, log⟩) := by
  have hrun :
      Step.Ends (fun s classes => w.At ⟨w.classes.length, 0, 0⟩ (featureAt? classes) s.arena)
      (fun failure s classes => w.Halted failure (featureAt? classes) s.arena)
      (Step.eachFrom (fun k => Analysis.checkClass w.registry (Analysis.classId k)) 0 w.classes
        ⟨w.base, log⟩) := by
    apply Step.eachFrom_invariant
      (I := fun k s classes => w.At ⟨k, 0, 0⟩ (featureAt? classes) (Checking.arena s))
    · intro k s classes c h hc
      exact h.checkClass hc s.log
    · exact w.at_start
  refine hrun.imp fun s classes h => h.mono ?_ ?_
  · intro i j f hf _
    obtain ⟨c, hc, -⟩ := Option.bind_eq_some_iff.mp hf
    exact .inl (List.getElem?_eq_some_iff.mp hc).1
  · intro i j f _ hfalse
    exact hfalse.elim

end Agenda

end Lcpl
