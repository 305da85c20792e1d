import Lcpl.Proofs.Body.Balance
import Lcpl.Proofs.Body.Refinement

/-!
# How deep a check goes

A check is given a number of levels that it may go down. Where they are enough, more of them change
nothing: neither the result, nor the nodes, nor the log. In a tree each level takes one of its
nodes, so as many levels as the tree has nodes are enough.

## Main definitions

* `Body.Deepens` — a step that runs like another one, unless that one runs out of levels

## Main results

* `Body.congruence_deepens` — the rules respect this
* `Body.deepens_checkBelow` — the same check with more levels
* `Body.runFrom_checkBelow_eq` — a check with as many levels as its tree has nodes
-/

namespace Lcpl.Body

variable {α : Type} {Γ : Context} {levels : Nat}

/-- The second step runs like the first one, unless the first one runs out of levels. -/
structure Deepens (step deeper : Body α) : Prop where
  restores : Restores step
  runFrom_eq : ∀ s, (step.runFrom s).1 ≠ .error (.fault .nestedTooDeep) →
    deeper.runFrom s = step.runFrom s

theorem runFrom_inScope_congr {step step' : Body α} {s : Session}
    (h : step'.runFrom s.nested = step.runFrom s.nested) :
    (inScope step').runFrom s = (inScope step).runFrom s := by
  rcases hrun : step.runFrom s.nested with ⟨result, after⟩
  have hrun' := h.trans hrun
  cases hleave : after.scopes.leave? with
  | none => rw [runFrom_inScope_of_none hrun' hleave, runFrom_inScope_of_none hrun hleave]
  | some scopes => rw [runFrom_inScope hrun' hleave, runFrom_inScope hrun hleave]

/-- The scope around a step that runs out of levels passes this on. -/
theorem Deepens.runFrom_inScope {step deeper : Body α} {s : Session} (hbalances : Balances step)
    (heq : (step.runFrom s.nested).1 ≠ .error (.fault .nestedTooDeep) →
      deeper.runFrom s.nested = step.runFrom s.nested)
    (h : ((inScope step).runFrom s).1 ≠ .error (.fault .nestedTooDeep)) :
    (inScope deeper).runFrom s = (inScope step).runFrom s := by
  rw [hbalances.runFrom_inScope] at h
  exact runFrom_inScope_congr (heq h)

theorem congruence_deepens : Congruence fun _ => Deepens where
  refl h := ⟨h, fun _ _ => rfl⟩
  bind {α β step step' next next'} h hnext := by
    refine ⟨h.restores.bind fun a => (hnext a).restores, fun s hlevels => ?_⟩
    have hstep := h.runFrom_eq s
    rcases hrun : step.runFrom s with ⟨failure | a, s'⟩
    · rw [hrun] at hstep
      rw [Step.runFrom_bind_of_error hrun] at hlevels ⊢
      exact Step.runFrom_bind_of_error (hstep fun hfailure =>
        hlevels (congrArg _ (Except.error.inj hfailure)))
    · rw [hrun] at hstep
      rw [Step.runFrom_bind_of_ok hrun] at hlevels ⊢
      rw [Step.runFrom_bind_of_ok (hstep nofun)]
      exact (hnext a).runFrom_eq s' hlevels
  inScope h :=
    have hbalances := Balances.of_restores h.restores
    ⟨hbalances.restores_inScope, fun s => Deepens.runFrom_inScope hbalances (h.runFrom_eq _)⟩
  inScope_define name line ty h :=
    have hbalances := Balances.define h.restores name line ty
    ⟨hbalances.restores_inScope, fun s => Deepens.runFrom_inScope hbalances (h.runFrom_eq _)⟩

/-- A check that does not run out of levels runs in the same way with more of them. -/
theorem deepens_checkBelow {more : Nat} (hle : levels ≤ more) (id : ExprId) :
    Deepens (checkBelow Γ levels id) (checkBelow Γ more id) := by
  induction levels generalizing more id with
  | zero => exact ⟨.fault nofun, fun _ h => (h rfl).elim⟩
  | succ levels ih =>
    obtain ⟨more, rfl⟩ := Nat.exists_eq_add_of_le' hle
    have hrecur (child : ExprId) := ih (Nat.le_of_succ_le_succ hle) child
    refine congruence_deepens.bind_refl (.node id) fun node => ?_
    refine congruence_deepens.bind_refl (.emit _) fun _ => ?_
    refine congruence_deepens.bind (congruence_deepens.elaborate Γ hrecur ..) fun r => ?_
    exact congruence_deepens.refl (.bind (.label ..) fun _ => .bind (.record ..) fun _ => .pure _)

/-- The check of a tree needs as many levels as the tree has nodes, at most. -/
theorem runFrom_checkBelow_eq {s : Session} {root : ExprId} {t : Term Unit} {ids : List ExprId}
    (hΓ : Γ.Sound) (hlocals : Γ.SoundScopes s.scopes)
    (hread : s.arena.Reads (fun _ => ()) root t ids) (hnodup : ids.Nodup)
    (hlevels : ids.length ≤ levels) :
    (checkBelow Γ levels root).runFrom s = (checkExpr Γ root).runFrom s := by
  have hwithin : t.Within ids.length := hread.within le_rfl
  obtain ⟨arena, log, -, hrun, -⟩ :=
    simulates_checkBelow (Γ := Γ) ids.length hwithin s.arena root ids
    s.scopes s.log hread hnodup fun _ _ => rfl
  -- elaboration does not know of levels, so it does not run out of them
  have hfault : ((checkBelow Γ ids.length root).runFrom s).1 ≠ .error (.fault .nestedTooDeep) := by
    rw [show (checkBelow Γ ids.length root).runFrom s = _ from hrun]
    exact (Term.good_elaborate hΓ trivial t.named_any hlocals).no_fault .nestedTooDeep
  have hspare : ids.length ≤ s.arena.size + spareLevels :=
    (Arena.length_le_size hnodup hread.lt_size).trans (Nat.le_add_right _ _)
  rw [checkExpr, Step.runFrom_bind_of_ok (Step.runFrom_get _)]
  exact ((deepens_checkBelow hlevels root).runFrom_eq s hfault).trans
    ((deepens_checkBelow hspare root).runFrom_eq s hfault).symm

end Lcpl.Body
