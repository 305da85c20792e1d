import Lcpl.Proofs.Analysis.Acceptance
import Lcpl.Proofs.Term.Renaming
import Lcpl.Proofs.Tree.Reordered

/-!
# Classes in another order

What an analysis demands besides the bodies is said of names, and names do not depend on the order
of the declarations. The numbers of the classes do, and nothing but the numbers: the tables of two
programs that are reordered are renamings of each other. So the root of a feature is checked in the
same context, up to these numbers.

## Main definitions

* `Outline.Reordered` — outlines that list the same classes
* `Program.renumber` — the number in the second program of a class of the first

## Main results

* `Outline.Reordered.acceptable`, `Program.Reordered.admitted` — the demands are met together
* `Program.Reordered.renames_table` — the tables are renamings of each other
* `Feature.exists_setting?_of_renames` — so are the contexts of the features
-/

namespace Lcpl

/-! ### Outlines -/

/-- The heads agree up to the order of the features. -/
structure ClassHead.Reordered (c d : ClassHead) : Prop where
  name : d.name = c.name
  parent : d.parent = c.parent
  methods : c.methods.Perm d.methods
  attributes : c.attributes.Perm d.attributes

theorem ClassHead.Reordered.symm {c d : ClassHead} (h : c.Reordered d) : d.Reordered c :=
  ⟨h.name.symm, h.parent.symm, h.methods.symm, h.attributes.symm⟩

namespace Outline

/-- The outlines list the same classes, up to the order of their features. -/
structure Reordered (o o' : Outline) : Prop where
  names : (o.classes.map ClassHead.name).Perm (o'.classes.map ClassHead.name)
  left : ∀ c ∈ o.classes, ∃ d ∈ o'.classes, c.Reordered d
  right : ∀ d ∈ o'.classes, ∃ c ∈ o.classes, c.Reordered d

namespace Reordered

variable {o o' : Outline} {name : String}

theorem symm (h : o.Reordered o') : o'.Reordered o where
  names := h.names.symm
  left d hd := by
    obtain ⟨c, hc, hcd⟩ := h.right d hd
    exact ⟨c, hc, hcd.symm⟩
  right c hc := by
    obtain ⟨d, hd, hcd⟩ := h.left c hc
    exact ⟨d, hd, hcd.symm⟩

theorem exists_mem_all (h : o.Reordered o') {d : ClassHead} (hd : d ∈ o'.all) :
    ∃ c ∈ o.all, c.Reordered d := by
  rcases List.mem_append.mp hd with hbuiltin | hd
  · exact ⟨d, List.mem_append_left _ hbuiltin, rfl, rfl, .refl _, .refl _⟩
  · obtain ⟨c, hc, hcd⟩ := h.right d hd
    exact ⟨c, List.mem_append_right _ hc, hcd⟩

theorem registers (h : o.Reordered o') (hname : o.Registers name) : o'.Registers name := by
  obtain ⟨c, hc, rfl⟩ := hname
  obtain ⟨d, hd, hdc⟩ := h.symm.exists_mem_all hc
  exact ⟨d, hd, hdc.name.symm⟩

theorem isType (h : o.Reordered o') (hname : o.IsType name) : o'.IsType name :=
  hname.imp_right h.registers

theorem inherits (h : o.Reordered o') {x y : String} (hxy : o.Inherits x y) : o'.Inherits x y := by
  cases hxy with
  | declared hc hparent =>
    obtain ⟨d, hd, hdc⟩ := h.symm.exists_mem_all hc
    rw [hdc.name]
    exact .declared hd (hdc.parent.symm.trans hparent)
  | byDefault hc hparent =>
    obtain ⟨d, hd, hcd⟩ := h.left _ hc
    rw [← hcd.name]
    exact .byDefault hd (hcd.parent.trans hparent)

theorem transGen_inherits (h : o.Reordered o') {x y : String}
    (hxy : Relation.TransGen o.Inherits x y) : Relation.TransGen o'.Inherits x y :=
  Relation.TransGen.mono (fun _ _ => h.inherits) x y hxy

theorem defines (h : o.Reordered o') {method x : String} {m : MethodHead}
    (hdefines : o.Defines method x m) : o'.Defines method x m := by
  induction hdefines with
  | own hc hm hname =>
    obtain ⟨d, hd, hdc⟩ := h.symm.exists_mem_all hc
    rw [hdc.name]
    exact .own hd (hdc.methods.mem_iff.mpr hm) hname
  | inherited hc hnone hparent _ ih =>
    obtain ⟨d, hd, hdc⟩ := h.symm.exists_mem_all hc
    rw [hdc.name] at hparent ⊢
    exact .inherited hd (fun m hm => hnone m (hdc.methods.mem_iff.mp hm)) (h.inherits hparent) ih

theorem wellFormed (h : o.Reordered o') (ho : o.WellFormed) : o'.WellFormed where
  distinct := h.names.nodup_iff.mp ho.distinct
  fresh d hd := by
    obtain ⟨c, hc, hcd⟩ := h.right d hd
    exact hcd.name ▸ ho.fresh c hc
  parents d hd parent hparent := by
    obtain ⟨c, hc, hcd⟩ := h.right d hd
    obtain ⟨hregisters, hstring⟩ := ho.parents c hc parent (hcd.parent.symm.trans hparent)
    exact ⟨h.registers hregisters, hstring⟩
  methods d hd := by
    obtain ⟨c, hc, hcd⟩ := h.right d hd
    exact (hcd.methods.map _).nodup_iff.mp (ho.methods c hc)
  attributes d hd := by
    obtain ⟨c, hc, hcd⟩ := h.right d hd
    exact (hcd.attributes.map _).nodup_iff.mp (ho.attributes c hc)
  params d hd m hm type htype := by
    obtain ⟨c, hc, hcd⟩ := h.right d hd
    exact h.isType (ho.params c hc m (hcd.methods.mem_iff.mpr hm) type htype)
  types d hd a ha := by
    obtain ⟨c, hc, hcd⟩ := h.right d hd
    exact h.isType (ho.types c hc a (hcd.attributes.mem_iff.mpr ha))

/-- Whether the classes fit together does not depend on their order. -/
theorem acceptable (h : o.Reordered o') (ho : o.Acceptable) : o'.Acceptable where
  toWellFormed := h.wellFormed ho.toWellFormed
  acyclic name hcycle := ho.acyclic name (h.symm.transGen_inherits hcycle)
  overrides d hd ancestor hancestor hinherits m hm m' hm' hname := by
    obtain ⟨c, hc, hcd⟩ := h.exists_mem_all hd
    obtain ⟨above, habove, hsame⟩ := h.exists_mem_all hancestor
    rw [hcd.name, hsame.name] at hinherits
    exact ho.overrides c hc above habove (h.symm.transGen_inherits hinherits)
      m (hcd.methods.mem_iff.mpr hm) m' (hsame.methods.mem_iff.mpr hm') hname
  redefinitions d hd ancestor hancestor hinherits a ha a' ha' := by
    obtain ⟨c, hc, hcd⟩ := h.exists_mem_all hd
    obtain ⟨above, habove, hsame⟩ := h.exists_mem_all hancestor
    rw [hcd.name, hsame.name] at hinherits
    exact ho.redefinitions c hc above habove (h.symm.transGen_inherits hinherits)
      a (hcd.attributes.mem_iff.mpr ha) a' (hsame.attributes.mem_iff.mpr ha')
  entry := by
    obtain ⟨c, hc, hname, m, hdefines, hparams⟩ := ho.entry
    obtain ⟨d, hd, hdc⟩ := h.symm.exists_mem_all hc
    refine ⟨d, hd, hdc.name.symm.trans hname, m, ?_, hparams⟩
    rw [← hdc.name]
    exact h.defines hdefines

end Reordered

end Outline

theorem Class.Reordered.head {c d : Class} (h : c.Reordered d) : c.head.Reordered d.head :=
  ⟨h.name, h.parent, h.methods.map _, h.attributes.map _⟩

namespace Program

variable {p q : Program}

theorem Reordered.outline (h : p.Reordered q) : p.outline.Reordered q.outline := by
  have hright {p q : Program} (h : p.Reordered q) :
      ∀ d ∈ q.outline.classes, ∃ c ∈ p.outline.classes, c.Reordered d := by
    intro head hhead
    obtain ⟨d, hd, rfl⟩ := List.mem_map.mp hhead
    obtain ⟨c, hc, hcd⟩ := h.classes.exists_mem hd
    exact ⟨c.head, List.mem_map_of_mem hc, hcd.head⟩
  have hnames (p : Program) : p.outline.classes.map ClassHead.name = p.classes.map Class.name := by
    simp [Program.outline, Function.comp_def, Class.head]
  refine ⟨?_, fun c hc => ?_, hright h⟩
  · rw [hnames, hnames]
    exact h.classes.map_name
  · obtain ⟨d, hd, hdc⟩ := hright h.symm c hc
    exact ⟨d, hd, hdc.symm⟩

theorem Reordered.wellDeclared (h : p.Reordered q) (hp : p.WellDeclared) : q.WellDeclared :=
  wellDeclared_iff.mpr (h.outline.wellFormed (wellDeclared_iff.mp hp))

/-- What is demanded besides the bodies is demanded in any order. -/
theorem Reordered.admitted (h : p.Reordered q) (hp : p.Admitted) : q.Admitted :=
  admitted_iff.mpr (h.outline.acceptable (admitted_iff.mp hp))

/-! ### Numbers -/

/-- The number in the second program of a class of the first: the one that has its name. -/
def renumber (p q : Program) (id : ClassId) : ClassId :=
  ((p.table.name? id).bind q.table.find?).getD id

section Renumber

variable (h : p.Reordered q) (hp : p.WellDeclared)
include h

theorem Reordered.size_table : q.table.size = p.table.size := by
  rw [Program.size_table, Program.size_table, ← List.length_map Class.name,
    ← h.classes.map_name.length_eq, List.length_map]

/-- A name stands for a class of the one program as it does for one of the other. -/
theorem Reordered.find?_table {name : String} {id : ClassId}
    (hname : p.table.find? name = some id) :
    q.table.find? name = some (p.renumber q id) := by
  have hsome : (q.table.find? name).isSome := by
    rw [Program.find?_table] at hname ⊢
    rw [← registers_iff]
    exact h.outline.registers (registers_iff.mpr (Option.isSome_of_eq_some hname))
  obtain ⟨d, hd, rfl⟩ := p.indexed_table.exists_class? hname
  obtain ⟨id', hid'⟩ := Option.isSome_iff_exists.mp hsome
  rw [renumber, Registry.name?, hd, Option.map_some, Option.bind_some, hid', Option.getD_some]

omit h in
theorem renumber_of_class?_eq_none {id : ClassId} (hid : p.table.class? id = none) :
    p.renumber q id = id := by
  rw [renumber, Registry.name?, hid]
  rfl

include hp in
/-- There and back. A number that belongs to no class is kept both times. -/
theorem Reordered.renumber_renumber (id : ClassId) : q.renumber p (p.renumber q id) = id := by
  cases hd : p.table.class? id with
  | none =>
    have hd' : q.table.class? id = none := by
      rw [Registry.class?_eq_none_iff, h.size_table]
      exact Registry.class?_eq_none_iff.mp hd
    rw [renumber_of_class?_eq_none hd, renumber_of_class?_eq_none hd']
  | some d =>
    have hfind := hp.coherent.find?_name hd
    exact Option.some_inj.mp ((h.symm.find?_table (h.find?_table hfind)).symm.trans hfind)

/-- A class of the program, and the same class of the other one. -/
theorem Reordered.exists_renumber_classId (hq : q.WellDeclared) {i : Nat} {c : Class}
    (hc : p.classes[i]? = some c) :
    ∃ j d, q.classes[j]? = some d ∧ c.Reordered d ∧
      p.renumber q (Analysis.classId i) = Analysis.classId j := by
  obtain ⟨d, hd, hdc⟩ := h.symm.classes.exists_mem (List.mem_of_getElem? hc)
  obtain ⟨j, hj⟩ := List.mem_iff_getElem?.mp hd
  refine ⟨j, d, hj, hdc.symm, ?_⟩
  have hfind : q.table.find? d.name = some (Analysis.classId j) :=
    hq.coherent.find?_name (class?_table hj)
  rw [renumber, Registry.name?, class?_table hc, Option.map_some, Option.bind_some,
    show (c.known p.names i).name = d.name from hdc.name, hfind, Option.getD_some]

/-- The built-in classes keep their numbers. -/
theorem Reordered.renumber_builtin {id : ClassId} {d : ClassDef}
    (hd : Registry.builtin.class? id = some d) : p.renumber q id = id := by
  have hfind (p : Program) : p.table.find? d.name = some id :=
    Registry.find?_listing_of_builtin (Registry.coherent_builtin.find?_name hd)
  exact Option.some_inj.mp ((h.find?_table (hfind p)).symm.trans (hfind q))

theorem Reordered.find?_table_eq (name : String) :
    q.table.find? name = (p.table.find? name).map (p.renumber q) := by
  cases hname : p.table.find? name with
  | some id => rw [h.find?_table hname, Option.map_some]
  | none =>
    cases hname' : q.table.find? name with
    | none => rfl
    | some id =>
      rw [h.symm.find?_table hname'] at hname
      cases hname

theorem Reordered.resolve?_names (name : String) :
    q.names.resolve? name = (p.names.resolve? name).map (Ty.rename (p.renumber q)) := by
  rw [Registry.resolve?, Registry.resolve?]
  split_ifs
  · rfl
  · rw [← Program.find?_table, ← Program.find?_table, h.find?_table_eq, Option.map_map,
      Option.map_map]
    rfl

theorem Reordered.known_method (id : ClassId) (m : Method) :
    m.known q.names (p.renumber q id) = (m.known p.names id).rename (p.renumber q) := by
  have hparams : m.params.filterMap (Param.known? q.names) =
      (m.params.filterMap (Param.known? p.names)).map (ParamDef.rename (p.renumber q)) := by
    rw [List.map_filterMap]
    refine List.filterMap_congr fun param _ => ?_
    rw [Param.known?, Param.known?, h.resolve?_names, Option.map_map, Option.map_map]
    rfl
  have hreturn : q.names.resolveReturn? m.returnType =
      (p.names.resolveReturn? m.returnType).map (Ty.rename (p.renumber q)) := by
    rw [Registry.resolveReturn?, Registry.resolveReturn?]
    split_ifs
    · rfl
    · exact h.resolve?_names _
  rw [Method.known, Method.registered, hparams, hreturn]
  rfl

theorem Reordered.known?_attribute (id : ClassId) (a : Attribute) :
    a.known? q.names (p.renumber q id) =
      (a.known? p.names id).map (AttributeDef.rename (p.renumber q)) := by
  rw [Attribute.known?, Attribute.known?, h.resolve?_names, Option.map_map, Option.map_map]
  rfl

include hp in
/-- A number belongs to no class, to a built-in class, or to a class of the program. -/
theorem Reordered.class?_cases (id : ClassId) :
    (p.table.class? id = none ∧ q.table.class? (p.renumber q id) = none) ∨
    (∃ d, Registry.builtin.class? id = some d ∧ p.table.class? id = some d ∧
      q.table.class? (p.renumber q id) = some d) ∨
    ∃ i j c d, id = Analysis.classId i ∧ p.renumber q id = Analysis.classId j ∧
      p.classes[i]? = some c ∧ q.classes[j]? = some d ∧ c.Reordered d := by
  cases hd : p.table.class? id with
  | none =>
    left
    rw [renumber_of_class?_eq_none hd, Registry.class?_eq_none_iff, h.size_table]
    exact ⟨rfl, Registry.class?_eq_none_iff.mp hd⟩
  | some d =>
    right
    by_cases hbuiltin : id.index < Registry.builtin.size
    · -- built-in classes keep their numbers
      left
      rw [class?_table_of_lt hbuiltin] at hd
      rw [h.renumber_builtin hd, class?_table_of_lt hbuiltin]
      exact ⟨d, hd, rfl, hd⟩
    · right
      obtain ⟨i, rfl⟩ := Registry.exists_classId_of_le (Nat.le_of_not_lt hbuiltin)
      rw [table, Registry.class?_listing] at hd
      obtain ⟨c, hc, -⟩ := Option.map_eq_some_iff.mp hd
      obtain ⟨j, d, hj, hcd, hnumber⟩ := h.exists_renumber_classId (h.wellDeclared hp) hc
      exact ⟨i, j, c, d, rfl, hnumber, hc, hj, hcd⟩

/-- The built-in classes mention no others. -/
theorem Reordered.rename_builtin {id : ClassId} {d : ClassDef}
    (hd : Registry.builtin.class? id = some d) :
    d.parent.map (p.renumber q) = d.parent ∧ d.attributes = [] ∧
      ∀ m ∈ d.methods, m.rename (p.renumber q) = m := by
  have hobject : p.renumber q .object = .object :=
    h.renumber_builtin (show Registry.builtin.class? .object = some .object from rfl)
  have hstring : p.renumber q .string = .string :=
    h.renumber_builtin (show Registry.builtin.class? .string = some .string from rfl)
  have hinOut : p.renumber q .inOut = .inOut :=
    h.renumber_builtin (show Registry.builtin.class? .inOut = some .inOut from rfl)
  rcases Registry.class?_builtin hd with ⟨-, rfl⟩ | ⟨-, rfl⟩ | ⟨-, rfl⟩
  all_goals
    simp [ClassDef.object, ClassDef.string, ClassDef.inOut, ClassDef.declared, MethodDef.native,
      MethodDef.rename, ParamDef.rename, Ty.string, hobject, hstring, hinOut]

theorem Reordered.parentId? {c d : Class} (hcd : c.Reordered d) :
    d.parentId? q.names = (c.parentId? p.names).map (p.renumber q) := by
  rw [Class.parentId?, Class.parentId?, hcd.parent]
  cases c.parent with
  | none =>
    exact congrArg some (h.renumber_builtin
      (show Registry.builtin.class? .object = some .object from rfl)).symm
  | some name =>
    dsimp only
    rw [← Program.find?_table, ← Program.find?_table]
    exact h.find?_table_eq name

section Features

variable {i j : Nat} {c d : Class} (hj : p.renumber q (Analysis.classId i) = Analysis.classId j)
  (hcd : c.Reordered d)
include hj hcd

theorem Reordered.mem_methods_known_iff {m : MethodDef} :
    m ∈ (d.known q.names j).methods ↔
      ∃ m' ∈ (c.known p.names i).methods, m'.rename (p.renumber q) = m := by
  change m ∈ d.methods.map (Method.known q.names (Analysis.classId j)) ↔
    ∃ m' ∈ c.methods.map (Method.known p.names (Analysis.classId i)), _
  simp only [List.mem_map, ← hj, h.known_method, exists_exists_and_eq_and, hcd.methods.mem_iff]

theorem Reordered.mem_attributes_known_iff {a : AttributeDef} :
    a ∈ (d.known q.names j).attributes ↔
      ∃ a' ∈ (c.known p.names i).attributes, a'.rename (p.renumber q) = a := by
  change a ∈ d.attributes.filterMap (Attribute.known? q.names (Analysis.classId j)) ↔
    ∃ a' ∈ c.attributes.filterMap (Attribute.known? p.names (Analysis.classId i)), _
  simp only [List.mem_filterMap, ← hj, h.known?_attribute, Option.map_eq_some_iff,
    hcd.attributes.mem_iff]
  constructor
  · rintro ⟨attr, hattr, a', ha', rfl⟩
    exact ⟨a', ⟨attr, hattr, ha'⟩, rfl⟩
  · rintro ⟨a', ⟨attr, hattr, ha'⟩, rfl⟩
    exact ⟨attr, hattr, a', ha', rfl⟩

end Features

section Tables

include hp

theorem Reordered.name?_table (id : ClassId) :
    q.table.name? (p.renumber q id) = p.table.name? id := by
  rw [Registry.name?, Registry.name?]
  rcases h.class?_cases hp id with ⟨hd, hd'⟩ | ⟨d, -, hd, hd'⟩ | ⟨i, j, c, d, rfl, hj, hc, hd, hcd⟩
  · rw [hd, hd']
  · rw [hd, hd']
  · rw [hj, class?_table hc, class?_table hd]
    exact congrArg some hcd.name

theorem Reordered.parent?_table (id : ClassId) :
    q.table.parent? (p.renumber q id) = (p.table.parent? id).map (p.renumber q) := by
  rw [Registry.parent?, Registry.parent?]
  rcases h.class?_cases hp id with
    ⟨hd, hd'⟩ | ⟨d, hbuiltin, hd, hd'⟩ | ⟨i, j, c, d, rfl, hj, hc, hd, hcd⟩
  · rw [hd, hd']
    rfl
  · rw [hd, hd']
    exact (h.rename_builtin hbuiltin).1.symm
  · rw [hj, class?_table hc, class?_table hd]
    exact h.parentId? hcd

theorem Reordered.ownMethod?_table (id : ClassId) (name : String) :
    q.table.ownMethod? (p.renumber q id) name =
      (p.table.ownMethod? id name).map (MethodDef.rename (p.renumber q)) := by
  rcases h.class?_cases hp id with
    ⟨hd, hd'⟩ | ⟨d, hbuiltin, hd, hd'⟩ | ⟨i, j, c, d, rfl, hj, hc, hd, hcd⟩
  · rw [Registry.ownMethod?, Registry.ownMethod?, hd, hd']
    rfl
  · rw [Registry.ownMethod?, Registry.ownMethod?, hd, hd']
    cases hfound : d.method? name with
    | none => simp [hfound]
    | some m =>
      have hm := (h.rename_builtin hbuiltin).2.2 m (List.mem_of_find?_eq_some hfound)
      simp [hfound, hm]
  · -- names are distinct in a class, so the order of its methods does not matter
    rw [hj]
    ext m
    rw [(h.wellDeclared hp).ownMethod?_eq_some_iff (class?_table hd), Option.map_eq_some_iff]
    simp only [hp.ownMethod?_eq_some_iff (class?_table hc), h.mem_methods_known_iff hj hcd]
    constructor
    · rintro ⟨⟨m, hm, rfl⟩, hname⟩
      exact ⟨m, ⟨hm, hname⟩, rfl⟩
    · rintro ⟨m, ⟨hm, hname⟩, rfl⟩
      exact ⟨⟨m, hm, rfl⟩, hname⟩

theorem Reordered.ownAttribute?_table (id : ClassId) (name : String) :
    q.table.ownAttribute? (p.renumber q id) name =
      (p.table.ownAttribute? id name).map (AttributeDef.rename (p.renumber q)) := by
  rcases h.class?_cases hp id with
    ⟨hd, hd'⟩ | ⟨d, hbuiltin, hd, hd'⟩ | ⟨i, j, c, d, rfl, hj, hc, hd, hcd⟩
  · rw [Registry.ownAttribute?, Registry.ownAttribute?, hd, hd']
    rfl
  · rw [Registry.ownAttribute?, Registry.ownAttribute?, hd, hd', Option.bind_some,
      ClassDef.attribute?, (h.rename_builtin hbuiltin).2.1]
    rfl
  · -- names are distinct, so the order of the attributes does not matter to the search
    rw [hj]
    ext a
    rw [(h.wellDeclared hp).ownAttribute?_eq_some_iff (class?_table hd), Option.map_eq_some_iff]
    simp only [hp.ownAttribute?_eq_some_iff (class?_table hc), h.mem_attributes_known_iff hj hcd]
    constructor
    · rintro ⟨⟨a, ha, rfl⟩, hname⟩
      exact ⟨a, ⟨ha, hname⟩, rfl⟩
    · rintro ⟨a, ⟨ha, hname⟩, rfl⟩
      exact ⟨⟨a, ha, rfl⟩, hname⟩

/-- The tables of reordered programs are renamings of each other. -/
theorem Reordered.renames_table : p.table.Renames (p.renumber q) q.table where
  injective := Function.LeftInverse.injective (h.renumber_renumber hp)
  object := h.renumber_builtin (show Registry.builtin.class? .object = some .object from rfl)
  string := h.renumber_builtin (show Registry.builtin.class? .string = some .string from rfl)
  size := h.size_table
  name? := h.name?_table hp
  find? := h.find?_table_eq
  parent? := h.parent?_table hp
  ownMethod? := h.ownMethod?_table hp
  ownAttribute? := h.ownAttribute?_table hp

end Tables

end Renumber

end Program

/-! ### Contexts of features -/

namespace Feature

variable {π : ClassId → ClassId} {registry registry' : Registry} {id : ClassId} {f : Feature}
  {Γ : Context} {e : Expectation}

/-- The root of a feature is checked in the same context, up to the numbers of the classes. -/
theorem exists_setting?_of_renames (h : registry.Renames π registry')
    (hsetting : f.setting? registry id = some (Γ, e)) :
    ∃ Γ', f.setting? registry' (π id) = some (Γ', e.rename π) ∧ Γ.Renames π Γ' := by
  rcases f with m | a
  · obtain ⟨method, hmethod, hset⟩ := Option.map_eq_some_iff.mp hsetting
    obtain ⟨rfl, rfl⟩ := Prod.mk.inj hset
    refine ⟨⟨registry', π id, m.line, method.params.map (ParamDef.rename π)⟩, ?_, h, rfl, rfl, rfl⟩
    rw [setting?, h.ownMethod?, hmethod, ← Expectation.ofReturn_rename]
    rfl
  · obtain ⟨attr, hattr, hset⟩ := Option.map_eq_some_iff.mp hsetting
    obtain ⟨rfl, rfl⟩ := Prod.mk.inj hset
    refine ⟨⟨registry', π id, a.line, []⟩, ?_, h, rfl, rfl, rfl⟩
    rw [setting?, h.ownAttribute?, hattr]
    rfl

end Feature

end Lcpl
