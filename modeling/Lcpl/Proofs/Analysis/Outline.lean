import Lcpl.Proofs.Analysis.Table
import Lcpl.Proofs.Registry.Inherited

/-!
# Outlines

The outline of a program is what its classes declare, without bodies and without class numbers.
Whether the classes fit together is a question about the outline: classes are known by their names,
and a class inherits from another if it names that as its parent. The registry of a program says the
same with numbers in place of names.

## Main definitions

* `Outline`, `Program.outline` — the heads of the classes of a program
* `Outline.Inherits`, `Outline.Defines` — the hierarchy and the nearest definition of a method, by
  names
* `Outline.WellFormed` — what is demanded of each class by itself

## Main results

* `Program.wellDeclared_iff` — the declarations are accepted if and only if the outline is well
  formed
* `Program.WellDeclared.inherits_iff`, `Program.WellDeclared.transGen_inherits_iff` — the hierarchy
  of names is that of the numbers
* `Program.WellDeclared.defines_iff` — so is the search for a method
-/

namespace Lcpl

/-! ### Heads -/

/-- What is declared of a method, with the names of the types. -/
structure MethodHead where
  name : String
  params : List String
  returnType : String
deriving DecidableEq, Repr

/-- What is declared of an attribute. -/
structure AttributeHead where
  name : String
  typeName : String
deriving DecidableEq, Repr

/-- What is declared of a class. -/
structure ClassHead where
  name : String
  parent : Option String
  methods : List MethodHead
  attributes : List AttributeHead
deriving DecidableEq, Repr

/-- The heads of the classes of a program. -/
structure Outline where
  classes : List ClassHead
deriving DecidableEq, Repr

def Method.head (m : Method) : MethodHead := ⟨m.name, m.params.map Param.typeName, m.returnType⟩

def Attribute.head (a : Attribute) : AttributeHead := ⟨a.name, a.typeName⟩

def Class.head (c : Class) : ClassHead :=
  ⟨c.name, c.parent, c.methods.map Method.head, c.attributes.map Attribute.head⟩

def Program.outline (p : Program) : Outline := ⟨p.classes.map Class.head⟩

def MethodDef.head (m : MethodDef) : MethodHead :=
  ⟨m.name, m.params.map ParamDef.typeName, m.returnTypeName⟩

def AttributeDef.head (a : AttributeDef) : AttributeHead := ⟨a.name, a.typeName⟩

def ClassDef.head (d : ClassDef) : ClassHead :=
  ⟨d.name, d.declaredParent, d.methods.map MethodDef.head, d.attributes.map AttributeDef.head⟩

/-! ### What an outline says -/

namespace Outline

variable (o : Outline)

/-- All classes: the built-in ones, and those of the program. -/
def all : List ClassHead := Registry.builtin.classes.toList.map ClassDef.head ++ o.classes

/-- The name is that of a class. -/
def Registers (name : String) : Prop := ∃ c ∈ o.all, c.name = name

/-- The name can be declared as a type. -/
def IsType (name : String) : Prop := name = Vocabulary.int ∨ o.Registers name

/-- The class of the first name has the second name for its parent. A class of the program that
declares none has `Object`. -/
inductive Inherits : String → String → Prop where
  | declared {c parent} (hc : c ∈ o.all) (hparent : c.parent = some parent) : Inherits c.name parent
  | byDefault {c} (hc : c ∈ o.classes) (hparent : c.parent = none) :
      Inherits c.name Vocabulary.object

/-- The nearest definition of a method: in the class itself or, if that has none, the nearest one
from its parent on. -/
inductive Defines (method : String) : String → MethodHead → Prop where
  | own {c m} (hc : c ∈ o.all) (hm : m ∈ c.methods) (hname : m.name = method) :
      Defines method c.name m
  | inherited {c parent m} (hc : c ∈ o.all) (hnone : ∀ m ∈ c.methods, m.name ≠ method)
      (hparent : o.Inherits c.name parent) (h : Defines method parent m) : Defines method c.name m

/-- What is demanded of the classes one by one. -/
structure WellFormed : Prop where
  distinct : (o.classes.map ClassHead.name).Nodup
  fresh : ∀ c ∈ o.classes, c.name ≠ Vocabulary.object ∧ c.name ≠ Vocabulary.string ∧
    c.name ≠ Vocabulary.inOut
  parents : ∀ c ∈ o.classes, ∀ parent, c.parent = some parent →
    o.Registers parent ∧ parent ≠ Vocabulary.string
  methods : ∀ c ∈ o.classes, (c.methods.map MethodHead.name).Nodup
  attributes : ∀ c ∈ o.classes, (c.attributes.map AttributeHead.name).Nodup
  params : ∀ c ∈ o.classes, ∀ m ∈ c.methods, ∀ type ∈ m.params, o.IsType type
  types : ∀ c ∈ o.classes, ∀ a ∈ c.attributes, o.IsType a.typeName

end Outline

/-! ### Names -/

namespace Registry

variable {registry : Registry} {name : String} {id : ClassId} {entry : Nat → Class → ClassDef}
  {classes : List Class}

/-- A built-in class is found in front of the classes of a program. -/
theorem find?_listing_of_builtin (h : builtin.find? name = some id) :
    (listing entry classes).find? name = some id := by
  rw [find?] at h
  rw [find?, listing, List.lookup_append, h, Option.some_or]

theorem find?_builtin_eq_none_iff :
    builtin.find? name = none ↔
      name ≠ Vocabulary.object ∧ name ≠ Vocabulary.string ∧ name ≠ Vocabulary.inOut := by
  rw [← Option.not_isSome_iff_eq_none, isSome_find?_iff]
  simp [builtin]

end Registry

namespace Program

variable {p : Program} {name : String}

/-- The names in the index are those of all classes. -/
theorem map_name_all (p : Program) :
    p.outline.all.map ClassHead.name = p.names.byName.map Prod.fst := by
  have hentries : (p.classes.mapIdx fun i c => (c.name, Analysis.classId i)).map Prod.fst =
      p.classes.map Class.name := by
    apply List.ext_getElem?
    intro i
    simp [Function.comp_def]
  rw [names, Registry.listing, List.map_append, hentries, Outline.all, List.map_append, outline,
    List.map_map, List.map_map]
  rfl

theorem registers_iff : p.outline.Registers name ↔ (p.names.find? name).isSome := by
  rw [Registry.isSome_find?_iff, ← map_name_all, List.mem_map]
  rfl

theorem isType_iff : p.outline.IsType name ↔ (p.names.resolve? name).isSome := by
  rw [Outline.IsType, registers_iff, Registry.resolve?]
  split
  · next hint => simp [hint]
  · next hint => simp [hint]

theorem find?_names_eq_string_iff :
    p.names.find? name = some .string ↔ name = Vocabulary.string := by
  constructor
  · intro h
    obtain ⟨d, hd, rfl⟩ := p.indexed_names.exists_class? h
    rw [names, Registry.class?_listing_of_lt (by decide)] at hd
    obtain rfl : ClassDef.string = d := Option.some_inj.mp hd
    rfl
  · rintro rfl
    exact Registry.find?_listing_of_builtin (by decide +kernel)

/-! ### Declarations -/

theorem wellLinked_iff {c : Class} :
    c.WellLinked p.names ↔ ∀ parent, c.parent = some parent →
      p.outline.Registers parent ∧ parent ≠ Vocabulary.string := by
  rw [Class.WellLinked, Class.parentId?]
  cases c.parent with
  | none => exact iff_of_true ⟨.object, rfl, by decide⟩ fun parent h => by cases h
  | some parent =>
    simp only [Option.some.injEq, forall_eq']
    have hstring : p.names.find? parent = some .string ↔ parent = Vocabulary.string :=
      find?_names_eq_string_iff
    rw [registers_iff, ne_eq parent, ← hstring]
    cases p.names.find? parent <;> simp

theorem wellSigned_iff {c : Class} :
    c.WellSigned p.names ↔
      (c.head.methods.map MethodHead.name).Nodup ∧
        (c.head.attributes.map AttributeHead.name).Nodup ∧
        (∀ m ∈ c.head.methods, ∀ type ∈ m.params, p.outline.IsType type) ∧
        ∀ a ∈ c.head.attributes, p.outline.IsType a.typeName := by
  have hmethods : c.head.methods.map MethodHead.name = c.methods.map Method.name := by
    simp [Class.head, Function.comp_def, Method.head]
  have hattributes : c.head.attributes.map AttributeHead.name =
      c.attributes.map Attribute.name := by
    simp [Class.head, Function.comp_def, Attribute.head]
  have hparams : (∀ m ∈ c.head.methods, ∀ type ∈ m.params, p.outline.IsType type) ↔
      ∀ m ∈ c.methods, ∀ param ∈ m.params, (p.names.resolve? param.typeName).isSome := by
    simp [Class.head, Method.head, isType_iff]
  have htypes : (∀ a ∈ c.head.attributes, p.outline.IsType a.typeName) ↔
      ∀ a ∈ c.attributes, (p.names.resolve? a.typeName).isSome := by
    simp [Class.head, Attribute.head, isType_iff]
  rw [hmethods, hattributes, hparams, htypes]
  exact ⟨fun h => ⟨h.methods, h.attributes, h.params, h.types⟩,
    fun ⟨hm, ha, hp, ht⟩ => ⟨hm, hp, ha, ht⟩⟩

/-- The declarations of a program are accepted if and only if its outline is well formed. -/
theorem wellDeclared_iff : p.WellDeclared ↔ p.outline.WellFormed := by
  have hnames : p.outline.classes.map ClassHead.name = p.classes.map Class.name := by
    simp [outline, Function.comp_def, Class.head]
  have hclasses {P : ClassHead → Prop} :
      (∀ c ∈ p.outline.classes, P c) ↔ ∀ c ∈ p.classes, P c.head := List.forall_mem_map
  constructor
  · intro h
    have hsigned (c : Class) (hc : c ∈ p.classes) := wellSigned_iff.mp (h.signed c hc)
    exact {
      distinct := hnames ▸ h.nodup
      fresh := hclasses.mpr fun c hc => Registry.find?_builtin_eq_none_iff.mp (h.fresh c hc)
      parents := hclasses.mpr fun c hc => wellLinked_iff.mp (h.linked c hc)
      methods := hclasses.mpr fun c hc => (hsigned c hc).1
      attributes := hclasses.mpr fun c hc => (hsigned c hc).2.1
      params := hclasses.mpr fun c hc => (hsigned c hc).2.2.1
      types := hclasses.mpr fun c hc => (hsigned c hc).2.2.2 }
  · intro h
    exact {
      fresh := fun c hc => Registry.find?_builtin_eq_none_iff.mpr (hclasses.mp h.fresh c hc)
      nodup := hnames ▸ h.distinct
      linked := fun c hc => wellLinked_iff.mpr (hclasses.mp h.parents c hc)
      signed := fun c hc => wellSigned_iff.mpr ⟨hclasses.mp h.methods c hc,
        hclasses.mp h.attributes c hc, hclasses.mp h.params c hc, hclasses.mp h.types c hc⟩ }

/-! ### Classes by number -/

theorem map_filterMap_known {α β γ : Type} {known? : α → Option β} {view : β → γ} {head : α → γ}
    {xs : List α} (hview : ∀ x y, known? x = some y → view y = head x)
    (hknown : ∀ x ∈ xs, (known? x).isSome) : (xs.filterMap known?).map view = xs.map head := by
  rw [List.map_filterMap, ← List.filterMap_eq_map]
  refine List.filterMap_congr fun x hx => ?_
  obtain ⟨y, hy⟩ := Option.isSome_iff_exists.mp (hknown x hx)
  simp [hy, hview x y hy]

theorem find?_eq_some_iff_of_nodup {α : Type} {key : α → String} {xs : List α} {x : α}
    (hnodup : (xs.map key).Nodup) :
    xs.find? (fun x => key x = name) = some x ↔ x ∈ xs ∧ key x = name := by
  constructor
  · intro h
    exact ⟨List.mem_of_find?_eq_some h, by simpa using List.find?_some h⟩
  · rintro ⟨hx, rfl⟩
    cases hfind : xs.find? (fun y => key y = key x) with
    | none => simpa using List.find?_eq_none.mp hfind x hx
    | some y =>
      have hkey : key y = key x := by simpa using List.find?_some hfind
      rw [List.inj_on_of_nodup_map hnodup (List.mem_of_find?_eq_some hfind) hx hkey]

theorem head_known {c : Class} (h : c.WellSigned p.names) (i : Nat) :
    (c.known p.names i).head = c.head := by
  have hmethods : (c.known p.names i).methods.map MethodDef.head = c.methods.map Method.head := by
    rw [Class.known, List.map_map]
    refine List.map_congr_left fun m hm => ?_
    have hparams : (m.params.filterMap (Param.known? p.names)).map ParamDef.typeName =
        m.params.map Param.typeName := by
      refine map_filterMap_known (fun x y hy => ?_) fun x hx => ?_
      · obtain ⟨ty, -, rfl⟩ := Option.map_eq_some_iff.mp hy
        rfl
      · rw [Param.known?, Option.isSome_map]
        exact h.params m hm x hx
    exact congrArg (MethodHead.mk m.name · m.returnType) hparams
  have hattributes : (c.known p.names i).attributes.map AttributeDef.head =
      c.attributes.map Attribute.head := by
    refine map_filterMap_known (fun x y hy => ?_) fun x hx => ?_
    · obtain ⟨ty, -, rfl⟩ := Option.map_eq_some_iff.mp hy
      rfl
    · rw [Attribute.known?, Option.isSome_map]
      exact h.types x hx
  rw [ClassDef.head, hmethods, hattributes]
  rfl

/-- A class of the program that declares no parent has `Object`. -/
theorem parentOf_iff_of_none {i : Nat} {parent : ClassId} {d : ClassDef}
    (hd : p.table.class? (Analysis.classId i) = some d)
    (hparent : d.declaredParent = none) :
    p.table.ParentOf (Analysis.classId i) parent ↔ parent = .object := by
  rw [table, Registry.class?_listing] at hd
  obtain ⟨c, hc, rfl⟩ := Option.map_eq_some_iff.mp hd
  have hparent : c.parent = none := hparent
  rw [parentOf_table_iff hc, Class.parentId?, hparent, Option.some_inj, eq_comm]

theorem class?_object (p : Program) : p.table.class? .object = some .object :=
  class?_table_of_lt (by decide)

theorem not_parentOf_object {parent : ClassId} : ¬ p.table.ParentOf .object parent := by
  intro hparent
  rw [Registry.ParentOf, Registry.parent?, class?_object] at hparent
  cases hparent

namespace WellDeclared

variable (h : p.WellDeclared) {id parent ancestor : ClassId} {d : ClassDef} {x y : String}
include h

theorem coherent : p.table.Coherent :=
  coherent_of_declarations (declarations_eq_ok_iff.mpr ⟨h, rfl⟩)

/-- The outline lists the heads of the registered classes by their numbers. -/
theorem map_head_table : p.table.classes.toList.map ClassDef.head = p.outline.all := by
  have hentries : (p.classes.mapIdx (Class.known p.names)).map ClassDef.head =
      p.classes.map Class.head := by
    apply List.ext_getElem?
    intro i
    rw [List.getElem?_map, List.getElem?_mapIdx, List.getElem?_map, Option.map_map]
    cases hc : p.classes[i]? with
    | none => rfl
    | some c => exact congrArg some (head_known (h.signed c (List.mem_of_getElem? hc)) i)
  rw [table, Registry.listing, Array.toList_append, List.map_append, List.toList_toArray, hentries]
  rfl

theorem mem_all_iff {c : ClassHead} :
    c ∈ p.outline.all ↔ ∃ id d, p.table.class? id = some d ∧ d.head = c := by
  rw [← h.map_head_table, List.mem_map]
  constructor
  · rintro ⟨d, hd, rfl⟩
    obtain ⟨i, hi⟩ := List.mem_iff_getElem?.mp hd
    exact ⟨⟨i⟩, d, by rw [Registry.class?, ← hi, Array.getElem?_toList], rfl⟩
  · rintro ⟨id, d, hd, rfl⟩
    exact ⟨d, Array.mem_toList_iff.mpr (Array.mem_of_getElem? hd), rfl⟩

theorem head_mem_all (hd : p.table.class? id = some d) : d.head ∈ p.outline.all :=
  h.mem_all_iff.mpr ⟨id, d, hd, rfl⟩

theorem mem_classes_iff {c : ClassHead} :
    c ∈ p.outline.classes ↔
      ∃ i d, p.table.class? (Analysis.classId i) = some d ∧ d.head = c := by
  rw [outline, List.mem_map]
  constructor
  · rintro ⟨c, hc, rfl⟩
    obtain ⟨i, hi⟩ := List.mem_iff_getElem?.mp hc
    exact ⟨i, c.known p.names i, class?_table hi, head_known (h.signed c hc) i⟩
  · rintro ⟨i, d, hd, rfl⟩
    rw [table, Registry.class?_listing] at hd
    obtain ⟨c, hc, rfl⟩ := Option.map_eq_some_iff.mp hd
    have hmem := List.mem_of_getElem? hc
    exact ⟨c, hmem, (head_known (h.signed c hmem) i).symm⟩

/-! ### The hierarchy -/

/-- The parent of a class is the one that it declares. -/
theorem parentOf_iff_of_declared (hd : p.table.class? id = some d)
    (hparent : d.declaredParent = some y) :
    p.table.ParentOf id parent ↔ p.table.find? y = some parent := by
  have hobject : p.table.find? Vocabulary.object = some .object := h.coherent.find?_object
  rw [Registry.ParentOf, Registry.parent?, hd, Option.bind_some]
  rcases class?_table_cases hd with (⟨-, rfl⟩ | ⟨-, rfl⟩ | ⟨-, rfl⟩) | ⟨i, c, -, -, rfl⟩
  · cases hparent
  · obtain rfl := Option.some_inj.mp hparent
    rw [hobject]
    rfl
  · obtain rfl := Option.some_inj.mp hparent
    rw [hobject]
    rfl
  · have hparent : c.parent = some y := hparent
    have hlink : (c.known p.names i).parent = c.parentId? p.names := rfl
    rw [hlink, Class.parentId?, hparent, find?_table]

/-- The parent of a registered class is registered. -/
theorem exists_class?_of_parentOf (hparent : p.table.ParentOf id parent) :
    ∃ d, p.table.class? parent = some d := by
  have hne : id ≠ .object := by
    rintro rfl
    exact not_parentOf_object hparent
  obtain ⟨parent', hparent', hlt⟩ := h.rooted id hparent.lt_size hne
  obtain rfl := hparent.eq hparent'
  exact Registry.exists_class?_of_lt hlt

/-- The hierarchy by names is that by numbers. -/
theorem inherits_iff :
    p.outline.Inherits x y ↔
      ∃ id parent, p.table.find? x = some id ∧ p.table.find? y = some parent ∧
        p.table.ParentOf id parent := by
  have hobject : p.table.find? Vocabulary.object = some .object := h.coherent.find?_object
  constructor
  · intro hinherits
    cases hinherits with
    | declared hc hparent =>
      obtain ⟨id, d, hd, rfl⟩ := h.mem_all_iff.mp hc
      have hparent : d.declaredParent = some y := hparent
      have hne : id ≠ .object := by
        rintro rfl
        obtain rfl := Option.some_inj.mp ((class?_object p).symm.trans hd)
        cases hparent
      obtain ⟨parent, hparentOf, -⟩ := h.rooted id (Registry.lt_size_of_class? hd) hne
      exact ⟨id, parent, h.coherent.find?_name hd,
        (h.parentOf_iff_of_declared hd hparent).mp hparentOf, hparentOf⟩
    | byDefault hc hparent =>
      -- only the classes of the program have `Object` for a parent without saying so
      obtain ⟨i, d, hd, rfl⟩ := h.mem_classes_iff.mp hc
      exact ⟨_, .object, h.coherent.find?_name hd, hobject,
        (parentOf_iff_of_none hd hparent).mpr rfl⟩
  · rintro ⟨id, parent, hx, hy, hparent⟩
    obtain ⟨d, hd, rfl⟩ := p.indexed_table.exists_class? hx
    cases hdeclared : d.declaredParent with
    | some name =>
      have hname := (h.parentOf_iff_of_declared hd hdeclared).mp hparent
      obtain ⟨e, he, rfl⟩ := p.indexed_table.exists_class? hy
      obtain ⟨e', he', rfl⟩ := p.indexed_table.exists_class? hname
      obtain rfl := Option.some_inj.mp (he.symm.trans he')
      exact .declared (h.head_mem_all hd) hdeclared
    | none =>
      -- `Object` has no parent at all, and the other built-in classes declare theirs
      rcases class?_table_cases hd with (⟨rfl, -⟩ | ⟨-, rfl⟩ | ⟨-, rfl⟩) | ⟨i, c, rfl, hc, rfl⟩
      · exact absurd hparent not_parentOf_object
      · cases hdeclared
      · cases hdeclared
      · obtain rfl := (parentOf_iff_of_none hd hdeclared).mp hparent
        obtain ⟨e, he, rfl⟩ := p.indexed_table.exists_class? hy
        obtain ⟨e', he', hname⟩ := p.indexed_table.exists_class? hobject
        obtain rfl := Option.some_inj.mp (he.symm.trans he')
        rw [hname]
        exact .byDefault (h.mem_classes_iff.mpr ⟨i, _, hd, rfl⟩) hdeclared

theorem transGen_inherits_iff :
    Relation.TransGen p.outline.Inherits x y ↔
      ∃ id ancestor, p.table.find? x = some id ∧ p.table.find? y = some ancestor ∧
        p.table.Descends id ancestor := by
  constructor
  · intro hinherits
    induction hinherits with
    | single hstep =>
      obtain ⟨id, parent, hx, hy, hparent⟩ := h.inherits_iff.mp hstep
      exact ⟨id, parent, hx, hy, .single hparent⟩
    | tail _ hstep ih =>
      obtain ⟨id, between, hx, hbetween, hdescends⟩ := ih
      obtain ⟨between', parent, hbetween', hy, hparent⟩ := h.inherits_iff.mp hstep
      obtain rfl := Option.some_inj.mp (hbetween.symm.trans hbetween')
      exact ⟨id, parent, hx, hy, hdescends.tail hparent⟩
  · rintro ⟨id, ancestor, hx, hy, hdescends⟩
    induction hdescends generalizing y with
    | single hparent => exact .single (h.inherits_iff.mpr ⟨id, _, hx, hy, hparent⟩)
    | @tail between parent _ hparent ih =>
      -- the class in between has a name, by which it is found
      obtain ⟨d, hd⟩ := Registry.exists_class?_of_lt hparent.lt_size
      have hname := h.coherent.find?_name hd
      exact .tail (ih hname) (h.inherits_iff.mpr ⟨between, parent, hname, hy, hparent⟩)

theorem transGen_inherits_iff_of_class? {e : ClassDef} (hd : p.table.class? id = some d)
    (he : p.table.class? ancestor = some e) :
    Relation.TransGen p.outline.Inherits d.name e.name ↔ p.table.Descends id ancestor := by
  have hname := h.coherent.find?_name hd
  have hname' := h.coherent.find?_name he
  constructor
  · intro hinherits
    obtain ⟨id', ancestor', hid, hancestor, hdescends⟩ := h.transGen_inherits_iff.mp hinherits
    obtain rfl := Option.some_inj.mp (hname.symm.trans hid)
    obtain rfl := Option.some_inj.mp (hname'.symm.trans hancestor)
    exact hdescends
  · intro hdescends
    exact h.transGen_inherits_iff.mpr ⟨id, ancestor, hname, hname', hdescends⟩

/-- No name stands above itself if and only if no number does. -/
theorem acyclic_iff :
    (∀ name, ¬ Relation.TransGen p.outline.Inherits name name) ↔
      ∀ id, ¬ p.table.Descends id id := by
  constructor
  · intro hacyclic id hcycle
    obtain ⟨parent, hparent, -⟩ := Relation.TransGen.head'_iff.mp hcycle
    obtain ⟨d, hd⟩ := Registry.exists_class?_of_lt hparent.lt_size
    have hname := h.coherent.find?_name hd
    exact hacyclic d.name (h.transGen_inherits_iff.mpr ⟨id, id, hname, hname, hcycle⟩)
  · intro hacyclic name hcycle
    obtain ⟨id, ancestor, hid, hancestor, hdescends⟩ := h.transGen_inherits_iff.mp hcycle
    obtain rfl := Option.some_inj.mp (hid.symm.trans hancestor)
    exact hacyclic id hdescends

/-! ### Features -/

/-- In a class, a name stands for one method and for one attribute at most. -/
theorem nodup_features (hd : p.table.class? id = some d) :
    (d.methods.map MethodDef.name).Nodup ∧ (d.attributes.map AttributeDef.name).Nodup := by
  rcases class?_table_cases hd with (⟨-, rfl⟩ | ⟨-, rfl⟩ | ⟨-, rfl⟩) | ⟨i, c, -, hc, rfl⟩
  · decide
  · decide
  · decide
  · have hsigned := h.signed c (List.mem_of_getElem? hc)
    obtain ⟨hmethods, hattributes, -⟩ := wellSigned_iff.mp hsigned
    rw [← head_known hsigned i, ClassDef.head, List.map_map] at hmethods hattributes
    exact ⟨hmethods, hattributes⟩

theorem ownMethod?_eq_some_iff {m : MethodDef} (hd : p.table.class? id = some d) :
    p.table.ownMethod? id x = some m ↔ m ∈ d.methods ∧ m.name = x := by
  rw [Registry.ownMethod?, hd, Option.bind_some, ClassDef.method?]
  exact find?_eq_some_iff_of_nodup (h.nodup_features hd).1

theorem ownAttribute?_eq_some_iff {a : AttributeDef} (hd : p.table.class? id = some d) :
    p.table.ownAttribute? id x = some a ↔ a ∈ d.attributes ∧ a.name = x := by
  rw [Registry.ownAttribute?, hd, Option.bind_some, ClassDef.attribute?]
  exact find?_eq_some_iff_of_nodup (h.nodup_features hd).2

/-- The search for a method by names finds what that by numbers finds. -/
theorem defines_iff {m : MethodHead} (hx : p.table.find? x = some id) :
    p.outline.Defines y x m ↔
      ∃ found, p.table.Finds (p.table.ownMethod? · y) id found ∧ found.head = m := by
  constructor
  · intro hdefines
    induction hdefines generalizing id with
    | own hc hm hname =>
      obtain ⟨id', d, hd, rfl⟩ := h.mem_all_iff.mp hc
      obtain rfl := Option.some_inj.mp ((h.coherent.find?_name hd).symm.trans hx)
      obtain ⟨found, hfound, rfl⟩ := List.mem_map.mp hm
      exact ⟨found, .own ((h.ownMethod?_eq_some_iff hd).mpr ⟨hfound, hname⟩), rfl⟩
    | inherited hc hnone hparent _ ih =>
      obtain ⟨id', d, hd, rfl⟩ := h.mem_all_iff.mp hc
      obtain rfl := Option.some_inj.mp ((h.coherent.find?_name hd).symm.trans hx)
      obtain ⟨id'', parent, hid'', hname, hparent⟩ := h.inherits_iff.mp hparent
      obtain rfl := Option.some_inj.mp (hx.symm.trans hid'')
      obtain ⟨found, hfinds, hhead⟩ := ih hname
      refine ⟨found, .above ?_ hparent hfinds, hhead⟩
      -- a method of the class itself would have been found by name
      apply Option.eq_none_iff_forall_ne_some.mpr
      intro own hown
      obtain ⟨hmem, rfl⟩ := (h.ownMethod?_eq_some_iff hd).mp hown
      exact hnone own.head (List.mem_map_of_mem hmem) rfl
  · rintro ⟨found, hfinds, rfl⟩
    induction hfinds generalizing x with
    | own hown =>
      obtain ⟨d, hd, rfl⟩ := p.indexed_table.exists_class? hx
      obtain ⟨hmem, hname⟩ := (h.ownMethod?_eq_some_iff hd).mp hown
      exact .own (h.head_mem_all hd) (List.mem_map_of_mem hmem) hname
    | @above id parent found hnone hparent _ ih =>
      obtain ⟨d, hd, rfl⟩ := p.indexed_table.exists_class? hx
      obtain ⟨e, he⟩ := h.exists_class?_of_parentOf hparent
      have hname := h.coherent.find?_name he
      refine .inherited (h.head_mem_all hd) ?_
        (h.inherits_iff.mpr ⟨id, parent, hx, hname, hparent⟩) (ih hname)
      intro m hm hsame
      obtain ⟨own, hmem, rfl⟩ := List.mem_map.mp hm
      have hown := (h.ownMethod?_eq_some_iff hd).mpr ⟨hmem, hsame⟩
      rw [hnone] at hown
      cases hown

end WellDeclared

end Program

end Lcpl
