import Lcpl.Proofs.Analysis.Failure

/-!
# An analysis leaves trees

An analysis points slots at new nodes, and new nodes at old ones. It may do so because the
expressions of the program form trees, and it leaves them as trees, also if it is stopped in the
middle.

## Main results

* `Arena.Annotates.closed` — annotated nodes lead to nodes, if the nodes did before
* `Program.exists_reads_analyse` — the roots of an analysed program read as terms
* `Program.checkForest_analyse` — an analysed program passes the check of the references
-/

namespace Lcpl

variable {ι : Type}

/-! ### Slots of nodes -/

namespace Arena

variable {registry : Registry} {W : ExprId → ClassId → Prop} {a b : Arena} {n : Nat} {k : ClassId}

theorem contains_of_get? {x : ExprId} {node : Node} (h : a.get? x = some node) : a.contains x :=
  contains_iff_exists_get?.mpr ⟨node, h⟩

theorem LeadsTo.contains {slot id : ExprId} (h : a.LeadsTo n slot id) (hid : a.contains id) :
    a.contains slot := by
  rcases h with rfl | ⟨-, line, typeName, type, hcast⟩
  · exact hid
  · exact contains_of_get? hcast

theorem contains_of_forall₂ {slots ids : List ExprId} (h : List.Forall₂ (a.LeadsTo n) slots ids)
    (hids : ∀ id ∈ ids, a.contains id) : ∀ slot ∈ slots, a.contains slot := by
  induction h with
  | nil => simp
  | cons head tail ih =>
    rw [List.forall_mem_cons] at hids ⊢
    exact ⟨head.contains hids.1, ih hids.2⟩

theorem Reworks.contains {expr expr' : Expr} (h : a.Reworks registry n k expr expr')
    (hexpr : ∀ child ∈ expr.children, a.contains child) :
    ∀ child ∈ expr'.children, a.contains child := by
  cases h with
  | slots _ hchildren => exact contains_of_forall₂ hchildren hexpr
  | receiver hslot hargs =>
    obtain ⟨-, line, type, -, hget⟩ := hslot
    simp only [Form.children, Option.toList, List.cons_append, List.nil_append] at hexpr ⊢
    rw [List.forall_mem_cons]
    exact ⟨contains_of_get? hget, contains_of_forall₂ hargs hexpr⟩
  | qualified _ _ hvalue =>
    simp only [Form.children, List.forall_mem_singleton] at hexpr ⊢
    exact hvalue.contains hexpr

/-- Annotated nodes lead to nodes, if the nodes did before. -/
theorem Annotates.closed (h : a.Annotates registry W b) (ha : a.Closed) : b.Closed := by
  have hgrown : ∀ x, a.contains x → b.contains x := by
    intro x hx
    rw [contains_iff] at hx ⊢
    exact hx.trans_le h.size_le
  intro x node hget
  by_cases hx : a.contains x
  · obtain ⟨before, hbefore⟩ := contains_iff_exists_get?.mp hx
    have hold : ∀ child ∈ before.expr.children, b.contains child :=
      fun child hchild => hgrown child (ha x before hbefore child hchild)
    rcases h.node x before hbefore with hsame | ⟨k, expr, type, -, hafter, hreworks⟩
    · obtain rfl := Option.some_inj.mp (hget.symm.trans hsame)
      exact hold
    · obtain rfl := Option.some_inj.mp (hget.symm.trans hafter)
      exact hreworks.contains hold
  · -- the node was made by the analysis
    rw [contains_iff, Nat.not_lt] at hx
    cases h.made x node hx hget with
    | receiver => simp [Form.children]
    | cast _ hlt =>
      simp only [Form.children, List.forall_mem_singleton]
      exact hgrown _ (contains_iff.mpr hlt)

end Arena

/-! ### Roots -/

namespace Bodies

variable {b : Bodies ι} {a : Arena} {ids : List ExprId}

/-- The root of a feature reads as a term, if it has one. -/
def Grown (b : Bodies ι) : Owned Feature := b.Rooted fun _ => True

theorem Rooted.grown {P : Term ι → Prop} {f : Feature} (h : b.Rooted P a f ids) : b.Grown a f ids :=
  h.imp_right fun ⟨root, t, hroot, hread, _⟩ => ⟨root, t, hroot, hread, trivial⟩

theorem Failed.grown {id : ClassId} {failure : Failure} {f : Feature}
    (h : b.Failed id failure a f ids) : b.Grown a f ids := by
  rcases h.cause with ⟨-, hrooted⟩ | ⟨-, -, -, hrooted⟩
  · exact hrooted.grown
  · exact hrooted.grown

theorem Halfway.grown {id : ClassId} {f : Feature} (h : b.Halfway id a f ids) :
    b.Grown a f ids := by
  unfold Halfway at h
  split at h
  · exact h.rooted.grown
  · exact h.rooted.grown

theorem Halted.grown {id : ClassId} {failure : Failure} {c : Class}
    (h : b.Halted id failure a c ids) : Features b.Grown a c ids := by
  rcases h with h | h
  · exact (h.mono (fun _ _ _ _ h => h.rooted.grown) (fun _ _ _ _ h => h.grown)
      fun _ _ _ _ h => h.2.grown).eachFrom
  · exact (h.mono (fun _ _ _ _ h => h.grown) (fun _ _ _ _ h => h.rooted.grown)
      fun _ _ _ _ h => h.2.grown).eachFrom

theorem jointly_roots {features : List Feature} {k : Nat}
    (h : EachFrom (fun _ => b.Grown) a k features ids) :
    Jointly (a.Readable b.mark) (features.filterMap Feature.root) ids := by
  induction h with
  | nil => exact .nil
  | @cons k f features own rest head tail ih =>
    rcases head with ⟨hroot, rfl⟩ | ⟨root, t, hroot, hread, -⟩
    · rw [List.filterMap_cons_none hroot]
      exact ih
    · rw [List.filterMap_cons_some hroot]
      exact .cons ⟨t, hread⟩ ih

theorem jointly_flatMap_roots {classes : List Class} {k : Nat}
    (h : EachFrom (fun _ => Features b.Grown) a k classes ids) :
    Jointly (a.Readable b.mark) (classes.flatMap Class.roots) ids := by
  induction h with
  | nil => exact .nil
  | cons head tail ih =>
    rw [List.flatMap_cons]
    exact Jointly.append_iff.mpr ⟨_, _, rfl, jointly_roots head, ih⟩

end Bodies

/-! ### Programs -/

namespace Program

variable {p : Program}

/-- The roots of an analysed program read as terms, apart from each other. -/
theorem exists_reads_analyse (hforest : p.checkForest = .ok ()) :
    ∃ ids, Jointly (p.analyse.program.exprs.Readable fun _ => ())
      (p.analyse.program.classes.flatMap Class.roots) ids ∧ ids.Nodup := by
  cases p.lastPhase with
  | declarations _ hr h =>
    rw [h, Class.flatMap_roots_eq hr.classes, hr.exprs]
    exact exists_reads_of_checkForest _ hforest
  | hierarchy _ hr _ h =>
    rw [h, Class.flatMap_roots_eq hr.classes, hr.exprs]
    exact exists_reads_of_checkForest _ hforest
  | @bodies result r s classes log hdeclare hr hcycle hbodies h =>
    let b : Bodies Unit := ⟨r.registry, fun _ => .any, (), fun _ => (), p.exprs.size,
      (Analysis.declares_of_declare hdeclare).1, trivial, fun _ _ => rfl⟩
    obtain ⟨ids, hraw, hnodup⟩ := Analysis.raw_of_checkForest b hforest hdeclare rfl rfl
      fun _ node _ => Naming.holds_any node.expr
    obtain ⟨a, classes', ids', log', hgrows, hrun⟩ :=
      Bodies.keeps_checkClasses hraw hnodup (r.log.push .hierarchyAcyclic)
    rw [h]
    refine ⟨ids', ?_, hgrows.nodup⟩
    -- after a failure, the features in front, the failed one and those behind are alike
    rcases hrun with ⟨hrun, hchecked⟩ | ⟨failure, hrun, htrail⟩
    · obtain ⟨-, rfl, rfl⟩ := by simpa using hbodies.symm.trans hrun
      apply Bodies.jointly_flatMap_roots (b := b) (k := 0)
      exact hchecked.mono fun _ _ _ _ h => h.mono fun _ _ _ _ h => h.rooted.grown
    · obtain ⟨-, rfl, rfl⟩ := by simpa using hbodies.symm.trans hrun
      apply Bodies.jointly_flatMap_roots (b := b) (k := 0)
      exact (htrail.mono (fun _ _ _ _ h => h.mono fun _ _ _ _ h => h.rooted.grown)
        (fun _ _ _ _ h => h.mono fun _ _ _ _ h => h.rooted.grown) fun _ _ _ _ h => h.grown).eachFrom

theorem closed_analyse (hforest : p.checkForest = .ok ()) : p.analyse.program.exprs.Closed := by
  obtain ⟨hclosed, -⟩ := (checkForest_eq_ok_iff id).mp hforest
  obtain ⟨registry, W, hannotates⟩ := exists_annotates_analyse hforest
  exact hannotates.closed hclosed

theorem line_analyse : p.analyse.program.line = p.line := by
  cases p.lastPhase with
  | declarations _ hr h => rw [h, hr.line]
  | hierarchy _ hr _ h => rw [h, hr.line]
  | bodies _ hr _ _ h =>
    rw [h]
    exact hr.line

theorem builtins_analyse : p.analyse.program.builtins = Registry.builtin.builtinClasses := by
  cases p.lastPhase with
  | declarations _ hr h => rw [h, hr.builtins]
  | hierarchy _ hr _ h => rw [h, hr.builtins]
  | bodies _ hr _ _ h =>
    rw [h]
    exact hr.builtins

/-- An analysed program passes the check of the references, whichever way the analysis has ended. -/
theorem checkForest_analyse (hforest : p.checkForest = .ok ()) :
    p.analyse.program.checkForest = .ok () := by
  have hbuiltins : Registry.builtin.builtinClasses.flatMap Class.roots = [] := by decide
  rw [checkForest_eq_ok_iff fun _ => ()]
  refine ⟨closed_analyse hforest, ?_⟩
  rw [builtins_analyse, List.flatMap_append, hbuiltins, List.append_nil]
  exact exists_reads_analyse hforest

/-- Nodes have been made when the analysis is stopped. -/
theorem checkForest_analyse_interrupted :
    interrupted.checkForest = .ok () ∧ interrupted.analyse.result.toBool = false ∧
      interrupted.analyse.program.exprs ≠ interrupted.exprs ∧
      interrupted.analyse.program.checkForest = .ok () := by
  have hforest : interrupted.checkForest = .ok () := by decide +kernel
  exact ⟨hforest, by decide +kernel, by decide +kernel, checkForest_analyse hforest⟩

end Program

end Lcpl
