import Lcpl.Proofs.Body.Refinement
import Lcpl.Proofs.Registry.Join
import Lcpl.Proofs.Registry.Cycles

/-!
# The branches of a choice

A choice with two branches is checked by checking its condition and both branches, each branch with
the local definitions in force before the choice. Neither branch sees what the other one defines, so
the type is found from the types of the branches alone. If the branches change places, the type
stays the same.

## Main results

* `Term.result_elaborate_conditional_iff` — when a choice is accepted, and with which type
* `Arena.Reads.swap_branches` — the tree that is read when the branches have changed places
* `Body.join_symmetric_bound` — the type of a choice is a symmetric bound of those of its branches
-/

namespace Lcpl

variable {ι : Type} {Γ : Context} {made mark : ι} {locals : Scopes String Variable}

/-! ### The rule for choices -/

namespace Visit

variable {e test thenBranch elseBranch : Elaborated ι} {t : Term ι} {ty : Ty} {line : Line}
  {w w' : List (Term ι)}

theorem runFrom_part_eq_ok_iff :
    (part e).runFrom w = (.ok (t, ty), w') ↔
      e.result = .ok ty ∧ t = e.term ∧ w' = w ++ [e.term] := by
  rw [runFrom_part]
  cases e.result with
  | error failure => simp [Except.map]
  | ok ty' =>
    simp only [Except.map, Prod.mk.injEq, Except.ok.injEq]
    constructor
    · rintro ⟨⟨rfl, rfl⟩, rfl⟩
      exact ⟨rfl, rfl, rfl⟩
    · rintro ⟨rfl, rfl, rfl⟩
      exact ⟨⟨rfl, rfl⟩, rfl⟩

theorem runFrom_condition_eq_ok_iff {construct : String} :
    (condition e construct line).runFrom w = (.ok t, w') ↔
      e.result = .ok .int ∧ t = e.term ∧ w' = w ++ [e.term] := by
  rw [condition, Step.runFrom_bind_eq_ok]
  constructor
  · rintro ⟨⟨t', ty⟩, w₁, hpart, hrest⟩
    obtain ⟨hresult, rfl, rfl⟩ := runFrom_part_eq_ok_iff.mp hpart
    by_cases hint : ty = .int
    · obtain ⟨rfl, rfl⟩ := by simpa [hint] using hrest
      exact ⟨hint ▸ hresult, rfl, rfl⟩
    · dsimp only at hrest
      rw [if_pos hint, Step.runFrom_bind_of_error (Step.runFrom_reject ..)] at hrest
      cases hrest
  · rintro ⟨hresult, rfl, rfl⟩
    exact ⟨(e.term, .int), _, runFrom_part_eq_ok_iff.mpr ⟨hresult, rfl, rfl⟩, by simp⟩

/-- A choice between two branches is accepted if its parts are and the condition is a number. -/
theorem exists_runFrom_conditional_iff :
    (∃ form w', (conditional Γ line test thenBranch (some elseBranch)).runFrom w =
        (.ok (form, ty), w')) ↔
      test.result = .ok .int ∧ ∃ thenTy elseTy, thenBranch.result = .ok thenTy ∧
        elseBranch.result = .ok elseTy ∧ ty = Γ.registry.join thenTy elseTy := by
  constructor
  · rintro ⟨form, w', hrun⟩
    rw [conditional, Step.runFrom_bind_eq_ok] at hrun
    obtain ⟨t, w₁, hcondition, hrun⟩ := hrun
    obtain ⟨⟨thenTerm, thenTy⟩, w₂, hthen, hrun⟩ := Step.runFrom_bind_eq_ok.mp hrun
    obtain ⟨⟨elseTerm, elseTy⟩, w₃, helse, hrun⟩ := Step.runFrom_bind_eq_ok.mp hrun
    simp only [Step.runFrom_pure, Prod.mk.injEq, Except.ok.injEq] at hrun
    exact ⟨(runFrom_condition_eq_ok_iff.mp hcondition).1, thenTy, elseTy,
      (runFrom_part_eq_ok_iff.mp hthen).1, (runFrom_part_eq_ok_iff.mp helse).1, hrun.1.2.symm⟩
  · rintro ⟨htest, thenTy, elseTy, hthen, helse, rfl⟩
    refine ⟨.conditional test.term thenBranch.term (some elseBranch.term),
      w ++ [test.term] ++ [thenBranch.term] ++ [elseBranch.term], ?_⟩
    rw [conditional, Step.runFrom_bind_of_ok (runFrom_condition_eq_ok_iff.mpr ⟨htest, rfl, rfl⟩),
      Step.runFrom_bind_of_ok (runFrom_part_eq_ok_iff.mpr ⟨hthen, rfl, rfl⟩)]
    exact Step.runFrom_bind_of_ok (runFrom_part_eq_ok_iff.mpr ⟨helse, rfl, rfl⟩)

end Visit

namespace Term

variable {line : Line} {type : Option TypeName} {ty : Ty}

/-- A term is accepted if its rule succeeds, with a type that can be written down. -/
theorem result_elaborate_iff {form : Form (Term ι)} :
    ((node mark line form type).elaborate Γ made locals).result = .ok ty ↔
      (∃ form' w, (Visit.rule Γ made locals line (form.elaborate Γ made line locals)).runFrom [] =
        (.ok (form', ty), w)) ∧ ∃ label, Γ.registry.label? ty = some label := by
  rw [Term.elaborate, Visit.recorded, Step.runFrom_bind]
  rcases (Visit.rule Γ made locals line (form.elaborate Γ made line locals)).runFrom [] with
    ⟨failure | ⟨form', ty'⟩, w⟩
  · simp [leave]
  · -- the rule has succeeded, and its type remains to be written down
    cases hlabel : Γ.registry.label? ty' with
    | none =>
      simp only [Body.label, hlabel,
        Step.runFrom_bind_of_error (Step.runFrom_demand_none ..), leave]
      refine iff_of_false (by simp) ?_
      rintro ⟨⟨_, _, hrule⟩, label, hty⟩
      obtain ⟨⟨rfl, rfl⟩, rfl⟩ := by simpa using hrule
      rw [hlabel] at hty
      cases hty
    | some label =>
      simp only [Body.label, hlabel, Step.runFrom_bind_of_ok (Step.runFrom_demand_some ..),
        Step.runFrom_pure, leave, Except.ok.injEq, Prod.mk.injEq]
      constructor
      · rintro rfl
        exact ⟨⟨form', w, ⟨rfl, rfl⟩, rfl⟩, label, hlabel⟩
      · rintro ⟨⟨_, _, ⟨-, rfl⟩, -⟩, -⟩
        rfl

/-- When a choice between two branches is accepted, and with which type. -/
theorem result_elaborate_conditional_iff {test thenBranch elseBranch : Term ι} :
    ((node mark line (.conditional test thenBranch (some elseBranch)) type).elaborate Γ made
        locals).result = .ok ty ↔
      (test.elaborate Γ made locals).result = .ok .int ∧
      (∃ thenTy elseTy, (thenBranch.elaborate Γ made locals.enter).result = .ok thenTy ∧
        (elseBranch.elaborate Γ made locals.enter).result = .ok elseTy ∧
        ty = Γ.registry.join thenTy elseTy) ∧
      ∃ label, Γ.registry.label? ty = some label := by
  rw [result_elaborate_iff, ← and_assoc]
  exact and_congr_left' Visit.exists_runFrom_conditional_iff

/-- The branches of a choice may change places. -/
theorem result_elaborate_swap (hacyclic : ∀ id, ¬ Γ.registry.Descends id id)
    {test thenBranch elseBranch : Term ι} :
    ((node mark line (.conditional test thenBranch (some elseBranch)) type).elaborate Γ made
        locals).result = .ok ty ↔
      ((node mark line (.conditional test elseBranch (some thenBranch)) type).elaborate Γ made
        locals).result = .ok ty := by
  simp only [result_elaborate_conditional_iff]
  constructor
  · rintro ⟨htest, ⟨thenTy, elseTy, hthen, helse, rfl⟩, hlabel⟩
    exact ⟨htest, ⟨elseTy, thenTy, helse, hthen, Registry.join_comm hacyclic _ _⟩, hlabel⟩
  · rintro ⟨htest, ⟨elseTy, thenTy, helse, hthen, rfl⟩, hlabel⟩
    exact ⟨htest, ⟨thenTy, elseTy, hthen, helse, Registry.join_comm hacyclic _ _⟩, hlabel⟩

end Term

/-! ### Choices in an arena -/

/-- A form that stands over a choice between two branches is one. -/
theorem Form.exists_of_map_eq_conditional {κ κ' : Type} {f : κ → κ'} {form : Form κ}
    {test thenBranch elseBranch : κ'}
    (h : form.map f = .conditional test thenBranch (some elseBranch)) :
    ∃ x y z, form = .conditional x y (some z) ∧ f x = test ∧ f y = thenBranch ∧
      f z = elseBranch := by
  cases form with
  | conditional x y z? =>
    obtain ⟨rfl, rfl, hz⟩ := by simpa [Form.map] using h
    obtain ⟨z, rfl, rfl⟩ := hz
    exact ⟨x, y, z, rfl, rfl, rfl, rfl⟩
  | _ => simp [Form.map] at h

/-- When the branches of a choice change places in the arena, so they do in the tree that is
read. -/
theorem Arena.Reads.swap_branches {a : Arena} {mark : ExprId → ι} {t : Term ι} {ids : List ExprId}
    {root test thenBranch elseBranch : ExprId} {line : Line} {type : Option TypeName}
    (h : a.Reads mark root t ids) (hnodup : ids.Nodup)
    (hget : a.get? root = some ⟨line, .conditional test thenBranch (some elseBranch), type⟩) :
    ∃ x y z ids', t = .node (mark root) line (.conditional x y (some z)) type ∧
      (a.set root ⟨line, .conditional test elseBranch (some thenBranch), type⟩).Reads mark root
        (.node (mark root) line (.conditional x z (some y)) type) ids' ∧ ids'.Nodup := by
  obtain ⟨_, _, own, form, rfl, rfl, hform, hparts⟩ := h.exists_form
  obtain ⟨rfl, hmap, rfl⟩ := by simpa using hform.symm.trans hget
  obtain ⟨x, y, z, rfl, rfl, rfl, rfl⟩ := Form.exists_of_map_eq_conditional hmap
  obtain ⟨hroot, hown⟩ := List.nodup_cons.mp hnodup
  have horder : [x, y, z].Perm [x, z, y] := .cons x (.swap z y [])
  obtain ⟨own', hswapped, hperm⟩ := hparts.of_perm horder
  refine ⟨x.2, y.2, z.2, root :: own', rfl, ?_, ?_⟩
  · refine .node (.conditional x z (some y)) ?_ ?_
    · rw [Arena.get?_set, if_pos ⟨rfl, Arena.lt_of_get? hget⟩]
      rfl
    · -- only the root has changed, and it is none of the parts
      refine Arena.ReadsAll.of_get? hswapped fun i hi => ?_
      rw [Arena.get?_set, if_neg]
      rintro ⟨rfl, -⟩
      exact hroot (hperm.mem_iff.mp hi)
  · exact List.nodup_cons.mpr ⟨fun hmem => hroot (hperm.mem_iff.mp hmem), hperm.nodup_iff.mpr hown⟩

namespace Body

/-- In a registry without cycles the type of a choice is a bound of the types of its branches,
whatever their order. So if the branches of a choice change places, in an arena where the choice is
a tree, the choice is checked to have the same type as before, or to have none as before. -/
theorem join_symmetric_bound {registry : Registry} (hcycles : registry.checkCycles = .ok ()) :
    registry.JoinLaws ∧
    ∀ (Γ : Context) (a : Arena) (root test thenBranch elseBranch : ExprId) (line : Line)
      (type : Option TypeName) (t : Term Unit) (ids : List ExprId), Γ.registry = registry →
      a.get? root = some ⟨line, .conditional test thenBranch (some elseBranch), type⟩ →
      a.Reads (fun _ => ()) root t ids → ids.Nodup →
      ∀ (locals : Scopes String Variable) (log : Array Event) (ty : Ty),
        ((checkExpr Γ root).runFrom ⟨a, locals, log⟩).1 = .ok ty ↔
        ((checkExpr Γ root).runFrom ⟨a.set root
          ⟨line, .conditional test elseBranch (some thenBranch), type⟩, locals, log⟩).1 =
        .ok ty := by
  have hacyclic := Registry.checkCycles_eq_ok_iff.mp hcycles
  refine ⟨Registry.joinLaws hacyclic, ?_⟩
  rintro Γ a root test thenBranch elseBranch line type t ids rfl hget hread hnodup locals log ty
  -- each of the two checks ends as the elaboration of the tree that it reads
  obtain ⟨x, y, z, ids', rfl, hswapped, hnodup'⟩ := hread.swap_branches hnodup hget
  obtain ⟨_, _, _, hrun, -⟩ :=
    simulates_checkExpr (Γ := Γ) a root ids locals log hread hnodup fun _ _ => rfl
  obtain ⟨_, _, _, hrun', -⟩ :=
    simulates_checkExpr (Γ := Γ) _ root ids' locals log hswapped hnodup' fun _ _ => rfl
  rw [hrun, hrun']
  exact Term.result_elaborate_swap hacyclic

/-- A choice between an object of a class and one of its parent. -/
def choiceNodes : Arena :=
  ⟨#[⟨1, .intConstant 1, none⟩, ⟨2, .newObject "IO", none⟩, ⟨3, .newObject "Object", none⟩,
    ⟨4, .conditional ⟨0⟩ ⟨1⟩ (some ⟨2⟩), none⟩]⟩

/-- The parent is the type of the choice, whichever branch it stands in. -/
theorem join_symmetric_bound_choice :
    Registry.builtin.checkCycles = .ok () ∧ Registry.builtin.JoinLaws ∧
    ((checkExpr ⟨.builtin, .object, 1, []⟩ ⟨3⟩).runFrom ⟨choiceNodes, .empty, #[]⟩).1 =
      .ok (.object .object) ∧
    ((checkExpr ⟨.builtin, .object, 1, []⟩ ⟨3⟩).runFrom ⟨choiceNodes.set ⟨3⟩
      ⟨4, .conditional ⟨0⟩ ⟨2⟩ (some ⟨1⟩), none⟩, .empty, #[]⟩).1 = .ok (.object .object) := by
  have hcycles : Registry.builtin.checkCycles = .ok () := by decide +kernel
  have htest : choiceNodes.Reads (fun _ => ()) ⟨0⟩ (.node () 1 (.intConstant 1) none) [⟨0⟩] :=
    .node (.intConstant 1) rfl .nil
  have hthen : choiceNodes.Reads (fun _ => ()) ⟨1⟩ (.node () 2 (.newObject "IO") none) [⟨1⟩] :=
    .node (.newObject "IO") rfl .nil
  have helse : choiceNodes.Reads (fun _ => ()) ⟨2⟩ (.node () 3 (.newObject "Object") none) [⟨2⟩] :=
    .node (.newObject "Object") rfl .nil
  have hread : choiceNodes.Reads (fun _ => ()) ⟨3⟩
      (.node () 4
        (.conditional (.node () 1 (.intConstant 1) none) (.node () 2 (.newObject "IO") none)
        (some (.node () 3 (.newObject "Object") none))) none) [⟨3⟩, ⟨0⟩, ⟨1⟩, ⟨2⟩] :=
    .node (.conditional (⟨0⟩, _) (⟨1⟩, _) (some (⟨2⟩, _))) rfl
      (Jointly.cons_iff.mpr ⟨[⟨0⟩], [⟨1⟩, ⟨2⟩], rfl, htest,
        Jointly.cons_iff.mpr ⟨[⟨1⟩], [⟨2⟩], rfl, hthen, Jointly.singleton_iff.mpr helse⟩⟩)
  have hchecked : ((checkExpr ⟨.builtin, .object, 1, []⟩ ⟨3⟩).runFrom
      ⟨choiceNodes, .empty, #[]⟩).1 = .ok (.object .object) := by decide +kernel
  obtain ⟨hlaws, hswap⟩ := join_symmetric_bound hcycles
  refine ⟨hcycles, hlaws, hchecked, ?_⟩
  exact (hswap _ _ _ _ _ _ _ _ _ _ rfl rfl hread (by decide) .empty #[] _).mp hchecked

end Body

end Lcpl
