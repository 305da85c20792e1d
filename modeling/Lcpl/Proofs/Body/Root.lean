import Lcpl.Analysis.Run
import Lcpl.Proofs.Body.Refinement
import Lcpl.Proofs.Term.Idempotent

/-!
# The roots of features

The value of a root is used in one of three ways: not at all, as the initial value of an attribute,
or as what a method returns. The check of a root is described on terms, like that of any expression.

## Main definitions

* `Expectation.elaborate` — the check of a root, on terms
* `Expectation.MetBy` — a type that needs no conversion

## Main results

* `Expectation.exists_run` — the check does what elaboration does
* `Expectation.good_elaborate` — the elaboration of a root is sound
* `Expectation.elaborate_eq`, `Expectation.elaborate_elaborate` — and idempotent
-/

namespace Lcpl

variable {ι : Type}

namespace Expectation

/-- A value of the type needs no conversion. -/
def MetBy : Expectation → Ty → Prop
  | anything, _ => True
  | initial expected _, ty | returned expected _, ty => ty.Fits expected

/-- The expected type is a declared one. -/
def Declared (registry : Registry) : Expectation → Prop
  | anything => True
  | initial ty _ | returned ty _ => registry.Declarable ty

section Visit

variable (Γ : Context) (made : ι)

/-- Converts the value of a body to the type that its method returns. -/
def convertReturned (t : Term ι) (source target : Ty) (line : Line) : Visit ι (Term ι) :=
  match Γ.registry.conversion? source target with
  | some (.cast cast) =>
      if source = .int then Visit.wrapInCast Γ made t cast line
      else Visit.convert Γ made t source target t.line
  | _ => Visit.convert Γ made t source target t.line

/-- Uses the value of a root. -/
def convert (t : Term ι) (source : Ty) : Expectation → Visit ι (Term ι)
  | anything => pure t
  | initial ty site => Visit.convert Γ made t source ty site
  | returned ty line => convertReturned Γ made t source ty line

/-- Visits a root and uses its value. -/
def visit (e : Expectation) (root : Elaborated ι) : Visit ι (Term ι) := do
  let (t, ty) ← Visit.part root
  e.convert Γ made t ty

end Visit

/-- The elaboration of a root: whether it succeeds, and the term that is left. -/
def elaborate (Γ : Context) (made : ι) (e : Expectation) (t : Term ι) :
    Except Failure Unit × Term ι :=
  match ((e.visit Γ made (t.elaborate Γ made .empty)).runFrom []).1 with
  | .ok t => (.ok (), t)
  | .error failure => (.error failure, (t.elaborate Γ made .empty).term)

variable {Γ : Context} {made : ι} {mark : ExprId → ι} {N : ι → Naming} {e : Expectation}
variable {t : Term ι} {ty : Ty} {w w' : List (Term ι)} {failure : Failure}

/-! ### The check of a root -/

theorem lockstep_convert (v : Body.Visiting ι) (root : ExprId) (t : Term ι) (source ty : Ty)
    (site : Line) :
    Step.Lockstep v.Left (v.At [(root, t)] []) (Body.convert v.Γ root source ty site)
      (Visit.convert v.Γ v.made t source ty site) fun root' t' => v.At [(root', t')] [] := by
  have h : Step.Lockstep v.Left (v.At ([] ++ [(root, t)]) []) (Body.convert v.Γ root source ty site)
      (Visit.convert v.Γ v.made t source ty site) fun root' t' => v.At ([] ++ [(root', t')]) [] :=
    Body.Visiting.At.convert source ty site
  exact h

/-- The check of a root is in lockstep with visiting it. -/
theorem lockstep_check (v : Body.Visiting ι) (root : ExprId) (t : Term ι) (e : Expectation) :
    Step.Lockstep v.Left (v.At [] [(root, t)]) (e.check v.Γ root)
      (e.visit v.Γ v.made (t.elaborate v.Γ v.made v.locals))
      fun root' t' => v.At [(root', t')] [] := by
  cases e with
  | anything =>
    exact Body.Visiting.At.bind_recur Body.simulates_checkExpr fun ty => .pure fun _ _ h => h
  | initial ty site =>
    exact Body.Visiting.At.bind_recur Body.simulates_checkExpr fun source =>
      lockstep_convert v root _ source ty site
  | returned ty line =>
    refine Body.Visiting.At.bind_recur Body.simulates_checkExpr fun source => ?_
    refine Body.Visiting.At.bind_line List.mem_cons_self fun node hline => ?_
    have hconvert :=
      lockstep_convert v root (t.elaborate v.Γ v.made v.locals).term source ty node.line
    simp only [convert, convertReturned, ← hline]
    rcases v.Γ.registry.conversion? source ty with _ | _ | target
    · exact hconvert
    · exact hconvert
    · -- a number that is returned as a text gets its cast at the line of the method
      dsimp only
      split
      · exact Body.Visiting.At.wrapInCast [] [] target line
      · exact hconvert

theorem runFrom_wrapInCast (t : Term ι) (target : Ty) (line : Line) (w : List (Term ι)) :
    ((Visit.wrapInCast Γ made t target line).runFrom w).2 = w := by
  unfold Visit.wrapInCast Body.label
  cases Γ.registry.label? target <;> rfl

theorem runFrom_convert (t : Term ι) (source target : Ty) (site : Line) (w : List (Term ι)) :
    ((Visit.convert Γ made t source target site).runFrom w).2 = w := by
  have htypeName (ty : Ty) (w : List (Term ι)) :
      ((Body.typeName Γ ty : Visit ι String).runFrom w).2 = w := by
    rw [(Body.constant_typeName Γ ty).runFrom_eq]
  unfold Visit.convert
  split
  · rfl
  · exact runFrom_wrapInCast ..
  · exact Step.runFrom_bind_invariant id (htypeName source)
      (fun _ => Step.runFrom_bind_invariant id (htypeName target) fun _ _ => rfl) w

/-- Using the value of a root visits nothing. -/
theorem runFrom_use (e : Expectation) (t : Term ι) (source : Ty) (w : List (Term ι)) :
    ((e.convert Γ made t source).runFrom w).2 = w := by
  cases e with
  | anything => rfl
  | initial ty site => exact runFrom_convert ..
  | returned ty line =>
    simp only [convert, convertReturned]
    split
    · split
      · exact runFrom_wrapInCast ..
      · exact runFrom_convert ..
    · exact runFrom_convert ..

theorem runFrom_visit (Γ : Context) (made : ι) (e : Expectation) (r : Elaborated ι) :
    ((e.visit Γ made r).runFrom []).2 = [r.term] := by
  have hpart := Visit.runFrom_part r []
  unfold visit
  cases hr : r.result with
  | error failure =>
    rw [hr] at hpart
    rw [Step.runFrom_bind_of_error hpart]
    rfl
  | ok ty =>
    rw [hr] at hpart
    rw [Step.runFrom_bind_of_ok hpart, runFrom_use]
    rfl

/-- The check of a root does what elaboration does to the term it reads as. After a success every
new node belongs to the term. After a failure the root keeps its slot. -/
theorem exists_run {a : Arena} {root : ExprId} {ids : List ExprId}
    (hread : a.Reads mark root t ids) (hnodup : ids.Nodup)
    (hnew : ∀ x : ExprId, a.size ≤ x.index → mark x = made) (Γ : Context) (e : Expectation)
    (log : Array Event) :
    ∃ b log' root' ids', (e.check Γ root).runFrom ⟨a, .empty, log⟩ =
        ((e.elaborate Γ made t).1.map fun _ => root', ⟨b, .empty, log'⟩) ∧
      b.Reads mark root' (e.elaborate Γ made t).2 ids' ∧ a.Grows ids b ids' ∧
      ((e.elaborate Γ made t).1 = .ok () → b.size + ids.length = a.size + ids'.length) ∧
      ((e.elaborate Γ made t).1 ≠ .ok () → root' = root) := by
  let v : Body.Visiting ι := ⟨Γ, made, mark, .empty, a, [(root, t)], ids, hnew⟩
  have hat : v.At [] [(root, t)] ⟨a, .empty, log⟩ [] :=
    ⟨rfl, [], [], [], ids, rfl, rfl, rfl, .nil, .nil, Jointly.singleton_iff.mpr hread, .slnil,
      .refl hnodup, by simp [v]⟩
  have hw := runFrom_visit Γ made e (t.elaborate Γ made .empty)
  rcases (lockstep_check v root t e _ _ hat).cases with
    ⟨root', t', s, w, hrun, hvisit, hscopes, visited, old, ids', rest, -, hp⟩ |
      ⟨failure, s, w, hrun, hvisit, hscopes, visited, ids', rfl, hhandles, hreads, hgrows⟩
  · have helaborate : e.elaborate Γ made t = (.ok (), t') := by
      rw [elaborate, show (e.visit Γ made (t.elaborate Γ made .empty)).runFrom [] = _ from hvisit]
    obtain rfl := Jointly.nil_iff.mp hp.pending_reads
    rw [helaborate]
    refine ⟨s.arena, s.log, root', ids', ?_, Arena.readsAll_singleton.mp hp.slots_read, ?_, ?_, ?_⟩
    · rw [show e.check Γ root = e.check v.Γ root from rfl, hrun,
        ← show s.scopes = .empty from hscopes]
      rfl
    · simpa using hp.grows
    · intro _
      simpa using hp.count
    · simp
  · have helaborate : e.elaborate Γ made t =
        (.error failure, (t.elaborate Γ made .empty).term) := by
      rw [elaborate, show (e.visit Γ made (t.elaborate Γ made .empty)).runFrom [] = _ from hvisit]
    -- the root is all that was visited
    have hvisited : visited = [(root, (t.elaborate Γ made .empty).term)] := by
      rw [show (e.visit Γ made (t.elaborate Γ made .empty)).runFrom [] = _ from hvisit] at hw
      obtain ⟨⟨x, u⟩, rfl, rfl⟩ := List.map_eq_singleton_iff.mp hw
      obtain rfl : x = root := by simpa [v] using hhandles
      rfl
    subst hvisited
    rw [helaborate]
    refine ⟨s.arena, s.log, root, ids', ?_, Arena.readsAll_singleton.mp hreads, hgrows, ?_, ?_⟩
    · rw [show e.check Γ root = e.check v.Γ root from rfl, hrun,
        ← show s.scopes = .empty from hscopes]
      rfl
    · simp
    · simp

/-! ### Soundness -/

theorem ensures_convert (hΓ : Γ.Sound) (ht : t.WellTyped Γ N .empty ty)
    (he : e.Declared Γ.registry) (parts pending : List (Elaborated ι)) :
    Step.Ensures (Visit.Seen parts pending) (e.convert Γ made t ty)
      (fun c _ => ∃ ty, c.WellTyped Γ N .empty ty ∧ e.MetBy ty) (Visit.Stopped parts) := by
  have hconvert {target : Ty} (site : Line) (htarget : Γ.registry.Declarable target) :
      Step.Ensures (Visit.Seen parts pending) (Visit.convert Γ made t ty target site)
        (fun c _ => ∃ ty, c.WellTyped Γ N .empty ty ∧ ty.Fits target) (Visit.Stopped parts) :=
    (Visit.ensures_convert hΓ ht htarget).mono (fun _ h => h) fun _ _ h => h.1
  cases e with
  | anything => exact .pure fun w hw => ⟨ty, ht, trivial⟩
  | initial expected site => exact hconvert site he
  | returned expected line =>
    simp only [convert, convertReturned]
    split
    · next target hconv =>
      split
      · obtain rfl := Registry.eq_of_conversion?_eq_cast hconv
        exact (Visit.ensures_wrapInCast hΓ ht he).mono (fun _ h => h)
          fun _ _ h => ⟨_, h.1, .inl rfl⟩
      · exact hconvert _ he
    · exact hconvert _ he

/-- The elaboration of a root does not fault, and what it leaves after a success is well typed and
needs no conversion. -/
theorem good_elaborate (hΓ : Γ.Sound) (hmade : (N made).made) (hN : t.Named N)
    (he : e.Declared Γ.registry) :
    ((e.elaborate Γ made t).1 = .ok () →
      ∃ ty, (e.elaborate Γ made t).2.WellTyped Γ N .empty ty ∧ e.MetBy ty) ∧
    ∀ f, (e.elaborate Γ made t).1 ≠ .error (.fault f) := by
  have hgood := Term.good_elaborate hΓ hmade hN Context.soundScopes_empty
  set r := t.elaborate Γ made .empty with hr
  have hvisit : Step.Ensures (Visit.Seen [r] [r]) (e.visit Γ made r)
      (fun c _ => ∃ ty, c.WellTyped Γ N .empty ty ∧ e.MetBy ty) (Visit.Stopped [r]) :=
    Visit.bind_part hgood fun t ty ht => ensures_convert hΓ ht he [r] []
  have hseen := Visit.seen_nil [r]
  rw [elaborate, ← hr]
  rcases hrun : (e.visit Γ made r).runFrom [] with ⟨failure | t', w⟩
  · obtain ⟨-, hfault⟩ := hvisit.error hseen hrun
    exact ⟨fun h => (nomatch h), fun f h => hfault f (Except.error.inj h)⟩
  · exact ⟨fun _ => hvisit.ok hseen hrun, fun f h => nomatch h⟩

/-! ### Idempotence -/

/-- A well-typed root that needs no conversion elaborates to itself. -/
theorem elaborate_eq (hindexed : Γ.registry.Indexed) (hplain : ∀ mark, (N mark).Plain)
    (ht : t.WellTyped Γ N .empty ty) (hself : Γ.SelfFree .empty) (hty : e.MetBy ty) :
    e.elaborate Γ made t = (.ok (), t) := by
  have hkeep {target : Ty} (site : Line) (h : ty.Fits target) :
      Visit.convert Γ made t ty target site = pure t := by
    rw [Visit.convert, Registry.conversion?_eq_keep_iff.mpr h]
  have hconvert : e.convert Γ made t ty = pure t := by
    cases e with
    | anything => rfl
    | initial expected site => exact hkeep site hty
    | returned expected line =>
      rw [convert, convertReturned, Registry.conversion?_eq_keep_iff.mpr hty]
      exact hkeep _ hty
  rw [elaborate, visit, ht.elaborate_eq hindexed hplain hself,
    Step.runFrom_bind_of_ok (Visit.runFrom_part _ _)]
  dsimp only
  rw [hconvert]
  rfl

/-- The elaboration of a root is idempotent. -/
theorem elaborate_elaborate (hΓ : Γ.Sound) (hplain : ∀ mark, (N mark).Plain)
    (hmade : (N made).made) (hN : t.Named N) (hself : Γ.SelfFree .empty)
    (he : e.Declared Γ.registry) :
    e.elaborate Γ made (e.elaborate Γ made t).2 = e.elaborate Γ made t := by
  have hgood := (good_elaborate hΓ hmade hN he).1
  rcases hrun : (e.visit Γ made (t.elaborate Γ made .empty)).runFrom [] with ⟨failure | t', w⟩
  · have helaborate : e.elaborate Γ made t =
        (.error failure, (t.elaborate Γ made .empty).term) := by
      rw [elaborate, hrun]
    rw [helaborate, elaborate,
      Term.elaborate_elaborate hΓ hplain hmade hN Context.soundScopes_empty hself, hrun]
  · have helaborate : e.elaborate Γ made t = (.ok (), t') := by
      rw [elaborate, hrun]
    rw [helaborate] at hgood ⊢
    obtain ⟨ty, ht, hty⟩ := hgood rfl
    exact elaborate_eq hΓ.coherent.indexed hplain ht hself hty

end Expectation

end Lcpl
