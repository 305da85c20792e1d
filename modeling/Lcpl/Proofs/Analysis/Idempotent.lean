import Lcpl.Proofs.Analysis.Failure
import Lcpl.Proofs.Analysis.Redeclare
import Lcpl.Proofs.Analysis.Replay

/-!
# Analysis is idempotent

An analysis that is run again on the program it has left ends in the same way. If the program was
accepted, nothing changes any more. If it was rejected, nodes may be appended on the way to the
failure, and nothing else happens.

Names have to keep their meaning between the two runs. A qualified target loses its qualification,
and a receiver that was made is named `self`, so neither may be mistaken for something else.

## Main definitions

* `Program.Plain` — no target is qualified, and no variable is named `self`

## Main results

* `Program.exists_analyse_again` — the second run, whichever way the first one has ended
* `Program.analyse_analyse` — analysis is idempotent
-/

namespace Lcpl

/-- Targets without a point, and local definitions that are not named like the receiver. -/
def Naming.plain : Naming where
  target name := '.' ∉ name.toList
  bound name := name ≠ Vocabulary.receiver
  used _ := True
  made := True

theorem Naming.plain_plain : Naming.plain.Plain where
  target _ h := Body.Site.qualified?_eq_none h
  bound _ h := h
  used := trivial

namespace Program

variable {p : Program}

/-- No assignment has a qualified target, and no attribute, parameter or local definition is named
like the receiver. -/
structure Plain (p : Program) : Prop where
  targets : ∀ node ∈ p.exprs.nodes, ∀ target value ref, node.expr = .assignment target value ref →
    '.' ∉ target.toList
  locals : ∀ node ∈ p.exprs.nodes, ∀ name typeName init scope type,
    node.expr = .localDefinition name typeName init scope type → name ≠ Vocabulary.receiver
  attributes : ∀ c ∈ p.classes, ∀ a ∈ c.attributes, a.name ≠ Vocabulary.receiver
  params : ∀ c ∈ p.classes, ∀ m ∈ c.methods, ∀ param ∈ m.params, param.name ≠ Vocabulary.receiver

theorem Plain.holds (h : p.Plain) {x : ExprId} {node : Node} (hget : p.exprs.get? x = some node) :
    Naming.plain.Holds node.expr := by
  have hmem : node ∈ p.exprs.nodes := Array.mem_of_getElem? hget
  cases hexpr : node.expr with
  | assignment target value ref => exact h.targets node hmem target value ref hexpr
  | localDefinition name typeName init scope type =>
    exact h.locals node hmem name typeName init scope type hexpr
  | _ => trivial

/-- The built-in classes have no attributes, and no parameter of theirs is named like the
receiver. -/
theorem builtin_plain : ∀ d ∈ Registry.builtin.classes.toList, d.attributes = [] ∧
    ∀ m ∈ d.methods, ∀ param ∈ m.params, param.name ≠ Vocabulary.receiver := by
  decide

/-- In the table of a plain program, no attribute and no parameter is named like the receiver. -/
theorem Plain.of_class? (h : p.Plain) {id : ClassId} {d : ClassDef}
    (hd : p.table.class? id = some d) :
    (∀ a ∈ d.attributes, a.name ≠ Vocabulary.receiver) ∧
      ∀ m ∈ d.methods, ∀ param ∈ m.params, param.name ≠ Vocabulary.receiver := by
  by_cases hid : id.index < Registry.builtin.size
  · rw [class?_table_of_lt hid] at hd
    obtain ⟨hattributes, hmethods⟩ :=
      builtin_plain d (Array.mem_toList_iff.mpr (Array.mem_of_getElem? hd))
    exact ⟨by simp [hattributes], hmethods⟩
  · -- what is registered of a class of the program has the names that were declared
    obtain ⟨i, rfl⟩ := Registry.exists_classId_of_le (Nat.le_of_not_lt hid)
    rw [table, Registry.class?_listing] at hd
    obtain ⟨c, hc, rfl⟩ := Option.map_eq_some_iff.mp hd
    have hmem := List.mem_of_getElem? hc
    constructor
    · intro a ha
      obtain ⟨declared, hdeclared, hknown⟩ := List.mem_filterMap.mp ha
      obtain ⟨ty, -, rfl⟩ := Option.map_eq_some_iff.mp hknown
      exact h.attributes c hmem declared hdeclared
    · intro m hm param hparam
      obtain ⟨declared, hdeclared, rfl⟩ := List.mem_map.mp hm
      obtain ⟨source, hsource, hknown⟩ := List.mem_filterMap.mp hparam
      obtain ⟨ty, -, rfl⟩ := Option.map_eq_some_iff.mp hknown
      exact h.params c hmem declared hdeclared source hsource

/-- The registry of a plain program knows no variable that is named like the receiver. -/
theorem Plain.selfFree (h : p.Plain) : p.table.SelfFree := by
  constructor
  · intro id name method hmethod
    obtain ⟨d, hd, hfind⟩ := Option.bind_eq_some_iff.mp hmethod
    exact (h.of_class? hd).2 method (List.mem_of_find?_eq_some hfind)
  · intro id
    rw [Registry.ownAttribute?, Option.bind_eq_none_iff]
    intro d hd
    rw [ClassDef.attribute?, List.find?_eq_none]
    intro a ha
    simpa using (h.of_class? hd).1 a ha

/-- Casts that an analysis has made stand around nodes that were there before. -/
theorem wrapsOld_analyse (hforest : p.checkForest = .ok ()) (x : ExprId) :
    p.analyse.program.exprs.WrapsOld p.exprs.size x := by
  obtain ⟨registry, W, hannotates⟩ := exists_annotates_analyse hforest
  intro hle line typeName child type hcast
  cases hannotates.made x _ hle hcast with
  | cast _ hlt => exact hlt

theorem start_program {q : Program} (h : q.builtins = Registry.builtin.builtinClasses) :
    (Analysis.start q).program = q := by
  rw [Analysis.start, ← h]

/-- The second run of an analysis. It ends as the first one, and changes nothing but the arena,
which may get new nodes if the bodies are rejected. -/
theorem exists_analyse_again (hforest : p.checkForest = .ok ()) (hplain : p.Plain) :
    ∃ exprs log, p.analyse.program.analyse =
        ⟨p.analyse.result, { p.analyse.program with exprs }, log⟩ ∧
      p.analyse.program.exprs.Appends exprs ∧
      ((∃ registry, p.analyse.result = .ok registry) → exprs = p.analyse.program.exprs) := by
  cases p.lastPhase with
  | @declarations failure r hdeclare hr h =>
    obtain ⟨log, hagain⟩ := Analysis.exists_declare_again hdeclare rfl
    rw [start_program hr.builtins] at hagain
    have hrun : Analysis.run.runFrom (Analysis.start r.program) = _ :=
      Step.runFrom_bind_of_error hagain
    rw [h]
    exact ⟨r.program.exprs, log, analyse_eq hrun, .refl _, fun _ => rfl⟩
  | @hierarchy failure r hdeclare hr hcycle h =>
    obtain ⟨log, hagain⟩ := Analysis.exists_declare_again hdeclare rfl
    rw [start_program hr.builtins] at hagain
    rw [h]
    exact ⟨r.program.exprs, log, analyse_eq (Analysis.runFrom_run_of_cycle hagain hcycle), .refl _,
      fun _ => rfl⟩
  | @bodies result r s classes log hdeclare hr hcycle hbodies h =>
    have hdeclarations := declarations_of_declare hdeclare
    obtain ⟨-, htable⟩ := declarations_eq_ok_iff.mp hdeclarations
    let b : Bodies (Option ExprId) := ⟨r.registry, fun _ => .plain, none, p.original?, p.exprs.size,
      (Analysis.declares_of_declare hdeclare).1, trivial, fun x hx => if_neg (Nat.not_lt.mpr hx)⟩
    have hb : b.Steady := by
      refine ⟨fun _ => Naming.plain_plain, (htable ▸ hplain.selfFree : r.registry.SelfFree),
        underObject_of_declarations hdeclarations hcycle, fun x hx => ?_⟩
      by_contra hlt
      rw [show b.mark x = some x from original?_of_lt (Nat.lt_of_not_le hlt)] at hx
      cases hx
    obtain ⟨ids, hraw, hnodup⟩ := Analysis.raw_of_checkForest b hforest hdeclare rfl rfl
      fun _ _ hget => hplain.holds hget
    -- the second run starts from the nodes and the classes that the first one has left
    have hold := wrapsOld_analyse hforest
    rw [h] at hold ⊢
    have hagain := Bodies.exists_checkClasses_again hb hraw hnodup hbodies hold
    let q : Program := { r.program with classes, exprs := s.arena }
    have hq : (Analysis.start q).program = q := start_program hr.builtins
    obtain ⟨log₁, hdeclare'⟩ := Analysis.exists_declare_again (q := q) hdeclare
      (Analysis.map_signed_checkClasses _ hbodies)
    rw [hq] at hdeclare'
    obtain ⟨c, log₂, hbodies', happends, hsame⟩ := hagain (log₁.push .hierarchyAcyclic)
    obtain ⟨log₃, hrun'⟩ := Analysis.runFrom_run_of_bodies hdeclare' hcycle hbodies'
    refine ⟨c, log₃, (analyse_eq hrun').trans ?_, happends, ?_⟩
    · rw [show q.line = p.line from hr.line]
    · rintro ⟨registry, hok⟩
      cases result with
      | error failure => cases hok
      | ok => exact hsame rfl

/-- Analysis is idempotent, for programs whose names keep their meaning. The second run has the
outcome of the first one. After a success it changes nothing at all, and after a failure it may
append nodes. -/
theorem analyse_analyse (hforest : p.checkForest = .ok ()) (hplain : p.Plain) :
    p.analyse.program.analyse.result = p.analyse.result ∧
    (∀ registry, p.analyse.result = .ok registry →
      p.analyse.program.analyse.program = p.analyse.program) ∧
    ∀ failure, p.analyse.result = .error failure → ∃ added,
      p.analyse.program.analyse.program =
        { p.analyse.program with exprs := ⟨p.analyse.program.exprs.nodes ++ added⟩ } := by
  obtain ⟨exprs, log, hagain, happends, hsame⟩ := exists_analyse_again hforest hplain
  rw [hagain]
  refine ⟨rfl, fun registry hok => ?_, fun failure _ => ?_⟩
  · rw [hsame ⟨registry, hok⟩]
  · obtain ⟨added, hadded⟩ := happends.exists_nodes
    exact ⟨added, by rw [← hadded]⟩

theorem plain_recorder : recorder.Plain := by
  constructor
  · intro node hnode target value ref hexpr
    simp only [recorder, List.mem_toArray, List.mem_cons, List.not_mem_nil, or_false] at hnode
    rcases hnode with rfl | rfl | rfl | rfl | rfl <;> cases hexpr
    decide
  · intro node hnode name typeName init scope type hexpr
    simp only [recorder, List.mem_toArray, List.mem_cons, List.not_mem_nil, or_false] at hnode
    rcases hnode with rfl | rfl | rfl | rfl | rfl <;> cases hexpr
  · decide
  · decide

/-- The casts and receivers of the first run are found by the second one, which adds nothing. -/
theorem analyse_analyse_recorder :
    recorder.checkForest = .ok () ∧ recorder.Plain ∧ recorder.analyse.program ≠ recorder ∧
      recorder.analyse.program.analyse.result = recorder.analyse.result ∧
      recorder.analyse.program.analyse.program = recorder.analyse.program := by
  have hforest : recorder.checkForest = .ok () := by decide +kernel
  have hchanged : recorder.analyse.program ≠ recorder := by decide +kernel
  obtain ⟨registry, hok⟩ :=
    exists_of_toBool (by decide +kernel : recorder.analyse.result.toBool = true)
  obtain ⟨hresult, hsame, -⟩ := analyse_analyse hforest plain_recorder
  exact ⟨hforest, plain_recorder, hchanged, hresult, hsame registry hok⟩

end Program

end Lcpl
