import Lcpl.Proofs.Analysis.Origins
import Lcpl.Proofs.Format.Codec
import Lcpl.Proofs.Format.Extent

/-!
# Analysed programs as texts

An analysed program can be written and loaded again. Its handles fit, since each of them leads to a
node and the program has come from a text: analysis makes at most two nodes for each node that it
finds, and the text has more characters than that. Its types are read as themselves if no class has
a reserved name. Nothing keeps a program from declaring a class `void`, however, and where such a
class is recorded as a type, the type of that name is read.

## Main results

* `Program.addressable_analyse` — the handles of an analysed program fit into 64 bits
* `Program.isClassName_or_mem_classes` — a type that is read as something else is a class of the
  program
* `Program.load?_write_analyse` — what is loaded where an analysed program was written
* `Program.reloads_analysed` — when this is the analysed program itself
-/

namespace Lcpl

open Json (isBlank_compact isBlank_pretty)

namespace Program

variable {p : Program}

/-! ### Handles -/

/-- In a program whose references are in order, handles lead to nodes. -/
theorem lt_size_of_mem_handles (h : p.checkForest = .ok ()) : ∀ id ∈ p.handles,
    id.index < p.exprs.size := by
  obtain ⟨hclosed, ids, hids, -⟩ := (checkForest_eq_ok_iff fun _ => ()).mp h
  have hroot : ∀ id ∈ (p.classes ++ p.builtins).flatMap Class.roots, id.index < p.exprs.size := by
    intro id hid
    obtain ⟨own, ⟨t, hread⟩, -⟩ := hids.exists_of_mem hid
    exact hread.lt_size _ hread.mem_self
  have hchild : ∀ id ∈ p.exprs.nodes.toList.flatMap (fun node => node.expr.children),
      id.index < p.exprs.size := by
    rw [List.forall_mem_flatMap]
    intro node hnode id hid
    obtain ⟨i, hi⟩ := List.mem_iff_getElem?.mp hnode
    rw [Array.getElem?_toList] at hi
    exact Arena.contains_iff.mp (hclosed ⟨i⟩ node hi id hid)
  rw [List.flatMap_append, List.forall_mem_append] at hroot
  simp only [handles, List.forall_mem_append]
  exact ⟨⟨hroot.1, hchild⟩, hroot.2⟩

/-- The references of an analysed program are in order. -/
theorem forest_analyse (hforest : p.checkForest = .ok ()) :
    p.analyse.program.exprs.Closed ∧ ∃ ids, Jointly (p.analyse.program.exprs.Readable fun _ => ())
      ((p.analyse.program.classes ++ p.analyse.program.builtins).flatMap Class.roots) ids ∧
      ids.Nodup := by
  have hbuiltins : Registry.builtin.builtinClasses.flatMap Class.roots = [] := by decide
  rw [builtins_analyse, List.flatMap_append, hbuiltins, List.append_nil]
  exact ⟨closed_analyse hforest, exists_reads_analyse hforest⟩

/-- A program is loaded from its text if its types are read as themselves. -/
theorem load?_compact_eq_self (haddressable : p.Addressable)
    (htypes : ∀ type ∈ p.types, type.canonical = type) : load? p.compact = some p := by
  have hload : load? p.compact = _ := load?_write haddressable isBlank_compact
  rw [hload, mapTypes_eq_self_iff.mpr htypes]

section

variable {text : String} (h : load? text = some p) (hlength : text.length ≤ UInt64.size)
  (hforest : p.checkForest = .ok ())
include h hforest

include hlength in
/-- An analysed program has no handle that could not be read back. -/
theorem addressable_analyse : p.analyse.program.Addressable := by
  intro id hid
  have hnodes := size_le_of_load? h
  obtain ⟨hsize, -⟩ := footprint_analyse hforest
  have hlt := lt_size_of_mem_handles ((checkForest_eq_ok_iff _).mpr (forest_analyse hforest)) id hid
  calc id.index
    _ < p.analyse.program.exprs.size := hlt
    _ ≤ 3 * p.exprs.size := hsize
    _ ≤ text.length := hnodes
    _ ≤ UInt64.size := hlength

/-! ### Types -/

/-- Of the classes that are recorded in an analysed program, only its own ones may have a reserved
name. -/
theorem isClassName_or_mem_classes {name : String}
    (hname : TypeName.object name ∈ p.analyse.program.types) :
    TypeName.IsClassName name ∨ name ∈ p.classes.map Class.name := by
  have hbuiltin : ∀ name ∈ Registry.builtin.classes.toList.map ClassDef.name,
      TypeName.IsClassName name := by
    decide +kernel
  rcases types_analyse hforest _ hname with hold | hlabel
  · exact .inl (mapTypes_canonical_eq_self_iff.mp (loaded_of_load? h).2 name hold)
  · exact (mem_names_of_isLabel hlabel).imp_left (hbuiltin name)

/-! ### Texts -/

include hlength in
/-- In any layout, the text of an analysed program loads. -/
theorem load?_write_analyse {layout : Json.Layout} (hlayout : layout.IsBlank) :
    load? (String.ofList (Json.write layout 0 p.analyse.program.toJson)) =
      some (p.analyse.program.mapTypes TypeName.canonical) :=
  load?_write (addressable_analyse h hlength hforest) hlayout

end

/-- Both texts of an analysed program load, whichever way the analysis has ended. What is loaded is
the program, with every class that is recorded under a reserved name replaced by the type of that
name. It is the program itself if and only if there is no such class, and always if no class is
declared under a reserved name. A handle is written in 64 bits, hence the bound: every text in the
memory of a 64-bit machine keeps it. -/
theorem reloads_analysed {text : String} (h : load? text = some p)
    (hlength : text.length ≤ UInt64.size) (hforest : p.checkForest = .ok ()) :
    (load? p.analyse.program.compact = some (p.analyse.program.mapTypes TypeName.canonical) ∧
      load? p.analyse.program.pretty = some (p.analyse.program.mapTypes TypeName.canonical)) ∧
    ((load? p.analyse.program.compact = some p.analyse.program ↔
        ∀ name, TypeName.object name ∈ p.analyse.program.types → TypeName.IsClassName name) ∧
      (load? p.analyse.program.pretty = some p.analyse.program ↔
        ∀ name, TypeName.object name ∈ p.analyse.program.types → TypeName.IsClassName name)) ∧
    ((∀ c ∈ p.classes, TypeName.IsClassName c.name) →
      load? p.analyse.program.compact = some p.analyse.program ∧
      load? p.analyse.program.pretty = some p.analyse.program) := by
  have hcompact : load? p.analyse.program.compact = _ :=
    load?_write_analyse h hlength hforest isBlank_compact
  have hpretty : load? p.analyse.program.pretty = _ :=
    load?_write_analyse h hlength hforest isBlank_pretty
  simp only [hcompact, hpretty, Option.some_inj]
  refine ⟨⟨trivial, trivial⟩, ⟨mapTypes_canonical_eq_self_iff, mapTypes_canonical_eq_self_iff⟩, ?_⟩
  intro hclasses
  have hself : p.analyse.program.mapTypes TypeName.canonical = p.analyse.program := by
    rw [mapTypes_canonical_eq_self_iff]
    intro name hname
    rcases isClassName_or_mem_classes h hforest hname with hname | hname
    · exact hname
    · obtain ⟨c, hc, rfl⟩ := List.mem_map.mp hname
      exact hclasses c hc
  exact ⟨hself, hself⟩

/-- The text of a small program. -/
theorem loads_interrupted :
    load? interrupted.compact = some interrupted ∧ interrupted.compact.length ≤ UInt64.size ∧
      interrupted.checkForest = .ok () := by
  refine ⟨load?_compact_eq_self (by decide) (by decide), ?_, by decide +kernel⟩
  rw [compact, Json.compact, String.length_ofList]
  decide +kernel

/-- A program that is rejected half-way is written with what the analysis has recorded. -/
theorem reloads_analysed_interrupted :
    load? interrupted.compact = some interrupted ∧ interrupted.compact.length ≤ UInt64.size ∧
      interrupted.checkForest = .ok () ∧ interrupted.analyse.result.toBool = false ∧
      interrupted.analyse.program.types ≠ [] ∧
      load? interrupted.analyse.program.compact = some interrupted.analyse.program ∧
      load? interrupted.analyse.program.pretty = some interrupted.analyse.program := by
  obtain ⟨hload, hlength, hforest⟩ := loads_interrupted
  have hclasses : ∀ c ∈ interrupted.classes, TypeName.IsClassName c.name := by decide
  obtain ⟨-, -, hreload⟩ := reloads_analysed hload hlength hforest
  exact ⟨hload, hlength, hforest, by decide +kernel, by decide +kernel, hreload hclasses⟩

/-- A program with an object of a class that is named like the type of the constant `void`. -/
def hollow : Program where
  line := 1
  classes := [
    { line := 1, name := "void", parent := none, recordedParent := none, features := [] },
    { line := 2, name := "Main", parent := none, recordedParent := none
      features := [.method (.declared 3 "main" [] "void" (some ⟨0⟩))] }]
  exprs := ⟨#[⟨4, .newObject "void", none⟩]⟩
  builtins := []

/-- The object is loaded as if it were the constant. -/
theorem not_reloaded_hollow :
    load? hollow.compact = some hollow ∧ hollow.checkForest = .ok () ∧
      hollow.analyse.result.toBool = true ∧
      load? hollow.analyse.program.compact ≠ some hollow.analyse.program ∧
      load? hollow.analyse.program.pretty ≠ some hollow.analyse.program := by
  have hload : load? hollow.compact = some hollow := load?_compact_eq_self (by decide) (by decide)
  have haddressable : hollow.analyse.program.Addressable := by decide +kernel
  have hcompact : load? hollow.analyse.program.compact = _ :=
    load?_write haddressable isBlank_compact
  have hpretty : load? hollow.analyse.program.pretty = _ := load?_write haddressable isBlank_pretty
  have hother : hollow.analyse.program.mapTypes TypeName.canonical ≠ hollow.analyse.program := by
    have hname : TypeName.object "void" ∈ hollow.analyse.program.types := by decide +kernel
    intro heq
    exact absurd (mapTypes_canonical_eq_self_iff.mp heq "void" hname) (by decide)
  rw [hcompact, hpretty, Ne, Option.some_inj]
  exact ⟨hload, by decide +kernel, by decide +kernel, hother, hother⟩

end Program

end Lcpl
