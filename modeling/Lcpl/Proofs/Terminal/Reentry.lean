import Lcpl.Terminal.CommandLine
import Lcpl.Proofs.Format.Fields
import Lcpl.Proofs.Format.Reload

/-!
# Runs on the output of a run

What the tool has stored it accepts as input, also when it has found an error in the program. Two
facts about texts are behind this. Reading a program back replaces recorded types at most, which the
check of the references does not look at; and white space behind a program, such as the newline that
ends the stored text, is not part of it.

## Main definitions

* `CommandLine.Accepted` — the text stands for a program whose references are in order

## Main results

* `Program.checkForest_mapTypes` — the check of the references does not look at types
* `Program.load?_append_blanks` — white space behind a program changes nothing
* `CommandLine.exitCode_eq_two_iff` — the runs that store nothing
* `CommandLine.accepts_own_output` — runs on what a run has stored
-/

namespace Lcpl

/-! ### References -/

section

variable (f : TypeName → TypeName)

theorem Class.rootSlots_mapTypes (c : Class) : (c.mapTypes f).rootSlots = c.rootSlots := by
  rw [rootSlots, mapTypes, List.filterMap_map]
  refine List.filterMap_congr fun feature _ => ?_
  cases feature <;> rfl

theorem Expr.children_mapTypes (e : Expr) : (e.mapTypes f).children = e.children := by
  cases e <;> rfl

namespace Arena

variable (a : Arena)

theorem size_mapTypes : (a.mapTypes f).size = a.size := Array.size_map

theorem childSlots_mapTypes : (a.mapTypes f).childSlots = a.childSlots := by
  funext id
  have hget : (a.mapTypes f).get? id = (a.get? id).map (Node.mapTypes f) := Array.getElem?_map
  rw [childSlots, childSlots, hget]
  cases a.get? id with
  | none => rfl
  | some node => simp [Node.mapTypes, Expr.children_mapTypes]

/-- The walk follows the slots of the nodes. -/
theorem revisited?_congr {a b : Arena} (h : a.childSlots = b.childSlots) (unseen : Nat)
    (seen : List ExprId) (pending : List Slot) :
    a.revisited? unseen seen pending = b.revisited? unseen seen pending := by
  induction unseen generalizing seen pending with
  | zero => cases pending <;> rfl
  | succ unseen ih =>
    cases pending with
    | nil => rfl
    | cons slot pending => rw [revisited?, revisited?, h, ih]

end Arena

/-- The check of the references does not look at recorded types. -/
theorem Program.checkForest_mapTypes (p : Program) :
    (p.mapTypes f).checkForest = p.checkForest := by
  have hroots : (p.mapTypes f).rootSlots = p.rootSlots := by
    rw [rootSlots, mapTypes, ← List.map_append, List.flatMap_map]
    exact List.flatMap_congr fun c _ => c.rootSlots_mapTypes f
  have hsize : (p.mapTypes f).exprs.size = p.exprs.size := p.exprs.size_mapTypes f
  have hchildren : (p.mapTypes f).exprs.childSlots = p.exprs.childSlots :=
    p.exprs.childSlots_mapTypes f
  have hslots : (p.mapTypes f).slots = p.slots := by
    rw [slots, slots, hroots, hchildren, Arena.ids, Arena.ids, hsize]
  simp only [checkForest, hslots, hroots, Arena.contains, hsize, Arena.revisited?_congr hchildren]

end

/-! ### White space -/

namespace Json

theorem spaced_blanks {blanks : List Char} (h : ∀ c ∈ blanks, isBlank c = true) :
    Spaced [] blanks := by
  induction blanks with
  | nil => exact .nil
  | cons c blanks ih =>
    obtain ⟨hc, hblanks⟩ := List.forall_mem_cons.mp h
    exact .blank hc (ih hblanks)

theorem Spaced.append_blanks {tokens : List Token} {cs blanks : List Char} (h : Spaced tokens cs)
    (hblanks : ∀ c ∈ blanks, isBlank c = true) : Spaced tokens (cs ++ blanks) := by
  induction h with
  | nil => exact spaced_blanks hblanks
  | blank hc _ ih => exact .blank hc ih
  | @token _ own _ rest hown hend _ ih =>
    rw [List.append_assoc]
    refine .token hown (fun hnumber => ?_) ih
    -- behind the text, a number is ended by the first blank
    cases rest with
    | nil =>
      have hdelimits := delimits_blanks hblanks delimits_nil
      rwa [List.append_nil] at hdelimits
    | cons => exact hend hnumber

end Json

namespace Program

/-- White space behind a program changes nothing. -/
theorem load?_append_blanks {text blanks : String} {p : Program} (h : load? text = some p)
    (hblanks : ∀ c ∈ blanks.toList, Json.isBlank c = true) : load? (text ++ blanks) = some p := by
  obtain ⟨value, hparse, hvalue⟩ := Option.bind_eq_some_iff.mp h
  obtain ⟨tokens, hspells, hspaced⟩ := Json.parse?_eq_some_iff.mp hparse
  have hspelled : Json.Spelled value (text ++ blanks) := by
    refine ⟨tokens, hspells, ?_⟩
    rw [String.toList_append]
    exact hspaced.append_blanks hblanks
  rw [load?_of_spelled hspelled, hvalue]

end Program

/-! ### Runs -/

namespace CommandLine

/-- The text stands for a program whose references are in order. -/
def Accepted (text : String) : Prop :=
  ∃ p, Program.load? text = some p ∧ p.checkForest = .ok ()

variable {options : Options} {text complaint : String} {creation : Except String Unit}

/-- How a run on a text ends. -/
inductive Ending (text : String) (creation : Except String Unit) : Report → Prop where
  | refused (h : ¬ Accepted text) (diagnostics : List Diagnostic) :
      Ending text creation ⟨diagnostics, 2, none⟩
  | notCreated {reason : String} (hcreation : creation = .error reason)
      (diagnostics : List Diagnostic) : Ending text creation ⟨diagnostics, 2, none⟩
  | stored {p : Program} {code : UInt32} (h : Program.load? text = some p)
      (hforest : p.checkForest = .ok ()) (hcreation : creation = .ok ())
      (hcode : code = 0 ∨ code = 1) (diagnostics : List Diagnostic) :
      Ending text creation ⟨diagnostics, code, some (p.analyse.program.pretty ++ "\n")⟩

theorem load_eq_ok_iff {path : String} {p : Program} :
    load path (.text text) complaint = .ok p ↔
      Program.load? text = some p ∧ p.checkForest = .ok () := by
  constructor
  · intro h
    simp only [load, pure_bind] at h
    split at h
    · cases h
    · next hp =>
      split at h
      · cases h
      · next hforest =>
        cases h
        exact ⟨hp, hforest⟩
  · rintro ⟨hp, hforest⟩
    simp only [load, pure_bind, hp, hforest]
    rfl

/-- A run loads and analyses the text, and stores the program if there is a file for it. -/
theorem ending_run (options : Options) (text complaint : String) (creation : Except String Unit) :
    Ending text creation (run options (.text text) complaint creation) := by
  rw [run, prepare]
  cases hload : load options.input (.text text) complaint with
  | error error =>
    refine .refused ?_ _
    rintro ⟨p, hp⟩
    cases hload.symm.trans (load_eq_ok_iff.mpr hp)
  | ok p =>
    obtain ⟨hp, hforest⟩ := load_eq_ok_iff.mp hload
    rcases creation with reason | ⟨⟩
    · exact .notCreated rfl _
    · exact .stored hp hforest rfl (by dsimp only; split <;> simp) _

/-- The exit code of a run that stores a program says whether the analysis has failed. -/
theorem exitCode_run_of_load {p : Program} (h : Program.load? text = some p)
    (hforest : p.checkForest = .ok ()) :
    (run options (.text text) complaint (.ok ())).exitCode =
      if p.analyse.result.toBool then 0 else 1 := by
  have hload : load options.input (.text text) complaint = .ok p := load_eq_ok_iff.mpr ⟨h, hforest⟩
  simp only [run, prepare, hload, analysed, finish]
  cases p.analyse.result <;> rfl

/-- A run stores nothing if the text is not accepted or if there is no file to store it in. -/
theorem exitCode_eq_two_iff :
    (run options (.text text) complaint creation).exitCode = 2 ↔
      ¬ Accepted text ∨ ∃ reason, creation = .error reason := by
  have hend := ending_run options text complaint creation
  generalize run options (.text text) complaint creation = report at hend ⊢
  cases hend with
  | refused h => simp [h]
  | notCreated hcreation => simp [hcreation]
  | stored h hforest hcreation hcode =>
    have haccepted : Accepted text := ⟨_, h, hforest⟩
    rcases hcode with rfl | rfl <;> simp [haccepted, hcreation]

/-- The text that is stored for an accepted text is accepted. -/
theorem accepted_output {p : Program} (h : Program.load? text = some p)
    (hforest : p.checkForest = .ok ()) (hlength : text.length ≤ UInt64.size) :
    Accepted (p.analyse.program.pretty ++ "\n") := by
  have hload : Program.load? p.analyse.program.pretty = _ :=
    Program.load?_write_analyse h hlength hforest Json.isBlank_pretty
  have hnewline : ∀ c ∈ "\n".toList, Json.isBlank c = true := List.forall_mem_singleton.mpr rfl
  refine ⟨_, Program.load?_append_blanks hload hnewline, ?_⟩
  -- what is loaded differs from what was written in recorded types at most
  rw [Program.checkForest_mapTypes]
  exact (Program.checkForest_eq_ok_iff _).mpr (Program.forest_analyse hforest)

/-- What a run stores is accepted, so that a run on it fails only if its own output file cannot be
created. A run on a text that is not accepted fails and stores nothing. A handle is written in 64
bits, hence the bound: every text in the memory of a 64-bit machine keeps it. -/
theorem accepts_own_output (options : Options) (text complaint : String)
    (creation : Except String Unit) :
    (text.length ≤ UInt64.size →
      (run options (.text text) complaint creation).exitCode = 0 ∨
        (run options (.text text) complaint creation).exitCode = 1 →
      ∃ output, (run options (.text text) complaint creation).stored = some output ∧
        Accepted output ∧
        ∀ options' complaint' creation',
          (run options' (.text output) complaint' creation').exitCode = 2 →
            ∃ reason, creation' = .error reason) ∧
    (¬ Accepted text →
      (run options (.text text) complaint creation).exitCode = 2 ∧
      (run options (.text text) complaint creation).stored = none) := by
  have hend := ending_run options text complaint creation
  generalize run options (.text text) complaint creation = report at hend ⊢
  cases hend with
  | refused h => exact ⟨fun _ hcode => by simp at hcode, fun _ => ⟨rfl, rfl⟩⟩
  | notCreated hcreation => exact ⟨fun _ hcode => by simp at hcode, fun _ => ⟨rfl, rfl⟩⟩
  | stored h hforest =>
    refine ⟨fun hlength _ => ?_, fun hrefused => absurd ⟨_, h, hforest⟩ hrefused⟩
    have haccepted := accepted_output h hforest hlength
    refine ⟨_, rfl, haccepted, fun options' complaint' creation' hcode => ?_⟩
    exact (exitCode_eq_two_iff.mp hcode).resolve_left (not_not_intro haccepted)

/-- A rejected program is stored as a text that is accepted, also one that is given without the
names of its fields. The empty text is not accepted. -/
theorem accepts_own_output_interrupted :
    let options : Options := ⟨.auto, "in.json", "out.json"⟩
    let report := run options (.text Program.interrupted.compact) "" (.ok ())
    let unnamed := run options (.text "[1,[]]") "" (.ok ())
    (report.exitCode = 1 ∧ ∃ output, report.stored = some output ∧ Accepted output ∧
      (run options (.text output) "" (.ok ())).exitCode ≠ 2) ∧
    (unnamed.exitCode = 1 ∧ ∃ output, unnamed.stored = some output ∧ Accepted output) ∧
    ¬ Accepted "" ∧ (run options (.text "") "" (.ok ())).exitCode = 2 ∧
      (run options (.text "") "" (.ok ())).stored = none := by
  intro options
  dsimp only
  obtain ⟨hload, hlength, hforest⟩ := Program.loads_interrupted
  have hfailed : Program.interrupted.analyse.result.toBool = false := by decide +kernel
  have hcode :
      (run options (.text Program.interrupted.compact) "" (.ok ())).exitCode = 1 := by
    rw [exitCode_run_of_load hload hforest, hfailed]
    rfl
  obtain ⟨output, hstored, haccepted, hagain⟩ :=
    (accepts_own_output options Program.interrupted.compact "" (.ok ())).1 hlength (.inr hcode)
  -- the values of the fields stand in their order, and there is no class
  have hload' : Program.load? "[1,[]]" = some ⟨1, [], ⟨#[]⟩, []⟩ := by decide +kernel
  have hcode' : (run options (.text "[1,[]]") "" (.ok ())).exitCode = 1 := by
    rw [exitCode_run_of_load hload' (by decide +kernel)]
    decide +kernel
  obtain ⟨output', hstored', haccepted', -⟩ :=
    (accepts_own_output options "[1,[]]" "" (.ok ())).1 (by decide +kernel) (.inr hcode')
  have hrefused : ¬ Accepted "" := by
    rintro ⟨p, hp, -⟩
    have hnone : Program.load? "" = none := by decide +kernel
    cases hnone.symm.trans hp
  refine ⟨⟨hcode, output, hstored, haccepted, fun htwo => ?_⟩,
    ⟨hcode', output', hstored', haccepted'⟩, hrefused,
    (accepts_own_output options "" "" (.ok ())).2 hrefused⟩
  obtain ⟨reason, hreason⟩ := hagain options "" (.ok ()) htwo
  cases hreason

end CommandLine

end Lcpl
