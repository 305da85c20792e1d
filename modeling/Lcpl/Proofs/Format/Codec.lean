import Lcpl.Proofs.Json.Record
import Lcpl.Proofs.Format.Canonical
import Lcpl.Format.Text

/-!
# Programs as texts

Loading a text that was written for a program gives the program, with every recorded type as its
name is read. So nothing is lost but the difference between a class with a reserved name and the
type of that name; and nothing at all, if the program itself was loaded.

Each part of a program is treated alike: the value that it is written as is shallow enough for the
reader, and is read as the part with its types replaced. The other way round, what is read has types
that stay the same, and handles that can be written.

## Main definitions

* `Program.Addressable` — every handle of the program fits into 64 bits

## Main results

* `Program.ofJson?_toJson`, `Program.shallow_toJson` — a program that was written
* `Program.gives_ofJson?` — a program that was read
* `Program.load?_write` — the text of a program, in any layout
* `Program.faithful_texts` — loading what was written, and writing what was loaded
-/

namespace Lcpl

open Json

variable {levels : Nat}

/-! ### Single values -/

@[simp] theorem Line.ofJson?_toJson (line : Line) : Line.ofJson? line.toJson = some line := by
  simp [Line.ofJson?, Line.toJson, natural?, UInt32.toNat_lt_size]

@[simp] theorem Line.shallow_toJson (line : Line) : Shallow levels line.toJson := by
  apply shallow_integer
  have hline : line.toNat < UInt32.size := UInt32.toNat_lt_size line
  exact hline.trans (by decide)

@[simp] theorem ExprId.ofJson?_toJson {id : ExprId} (h : id.Fits) :
    ExprId.ofJson? id.toJson = some id := by
  simp [ExprId.ofJson?, ExprId.toJson, natural?, show id.index < UInt64.size from h]

@[simp] theorem ExprId.shallow_toJson {id : ExprId} (h : id.Fits) :
    Shallow levels id.toJson := shallow_integer h

@[simp] theorem ExprId.listOf?_listToJson {ids : List ExprId}
    (h : ∀ id ∈ ids, id.Fits) :
    ExprId.listOfJson? (ExprId.listToJson ids) = some ids :=
  listOf?_map_self fun id hid => ExprId.ofJson?_toJson (h id hid)

@[simp] theorem ExprId.field?_toJson {o : Option ExprId} (h : ∀ id ∈ o, id.Fits) :
    field? ExprId.ofJson? [orNull ExprId.toJson o] = some o :=
  field?_orNull_self (fun _ => nofun) fun id hid => ExprId.ofJson?_toJson (h id hid)

@[simp] theorem ExprId.shallow_listToJson {ids : List ExprId}
    (h : ∀ id ∈ ids, id.Fits) : Shallow (levels + 1) (ExprId.listToJson ids) := by
  rw [ExprId.listToJson, shallow_array_iff]
  exact List.forall_mem_map.mpr fun id hid => ExprId.shallow_toJson (h id hid)

@[simp] theorem Int64.ofJson?_toInt (value : Int64) :
    Int64.ofJson? (.integer value.toInt) = some value := by
  rw [Int64.ofJson?, if_pos ⟨value.minValue_le_toInt, value.toInt_le⟩, Int64.ofInt_toInt]

@[simp] theorem Int64.shallow_toInt (value : Int64) : Shallow levels (.integer value.toInt) := by
  apply shallow_integer
  have hle := value.le_toInt
  have hlt := value.toInt_lt
  simp only [UInt64.size]
  omega

theorem TypeName.ofJson?_toJson (type : TypeName) :
    TypeName.ofJson? type.toJson = some type.canonical :=
  congrArg some type.ofText_text_eq_canonical

@[simp] theorem TypeName.field?_toJson (o : Option TypeName) :
    field? TypeName.ofJson? (o.map TypeName.toJson).toList = some (o.map TypeName.canonical) :=
  field?_present (fun _ => nofun) fun type _ => type.ofJson?_toJson

@[simp] theorem VarRef.field?_toJson (o : Option VarRef) :
    field? VarRef.ofJson? (o.map VarRef.toJson).toList = some o := by
  refine field?_present_self (fun ref => by cases ref <;> nofun) fun ref _ => ?_
  cases ref <;>
    simp [VarRef.ofJson?, VarRef.toJson, VarRef.kind?, VarRef.form?, required, string?]

@[simp] theorem MethodRef.field?_toJson (o : Option MethodRef) :
    field? MethodRef.ofJson? (o.map MethodRef.toJson).toList = some o := by
  refine field?_present_self (fun _ => nofun) fun method _ => ?_
  simp [MethodRef.ofJson?, MethodRef.toJson, MethodRef.record, required, string?]

@[simp] theorem BinaryOperator.ofJson?_toJson (operator : BinaryOperator) :
    BinaryOperator.ofJson? operator.toJson = some operator := by
  cases operator <;> rfl

@[simp] theorem UnaryOperator.ofJson?_toJson (operator : UnaryOperator) :
    UnaryOperator.ofJson? operator.toJson = some operator := by
  cases operator <;> rfl

@[simp] theorem TypeName.shallow_toJson (type : TypeName) : Shallow levels type.toJson :=
  shallow_string _

@[simp] theorem VarRef.shallow_toJson (ref : VarRef) : Shallow (levels + 1) ref.toJson := by
  cases ref <;> simp [VarRef.toJson, shallow_object_iff]

@[simp] theorem MethodRef.shallow_toJson (method : MethodRef) :
    Shallow (levels + 1) method.toJson := by
  simp [MethodRef.toJson, shallow_object_iff]

@[simp] theorem BinaryOperator.shallow_toJson (operator : BinaryOperator) :
    Shallow levels operator.toJson := by
  cases operator <;> exact shallow_string _

@[simp] theorem UnaryOperator.shallow_toJson (operator : UnaryOperator) :
    Shallow levels operator.toJson := by
  cases operator <;> exact shallow_string _

/-- The tag of an object that has no other field of that name. -/
theorem required_kind {kind : String} {members : Members} (h : values "kind" members = []) :
    required string? "kind" (("kind", .string kind) :: members) = some kind := by
  simp [required, h, string?]

/-! ### Expressions -/

namespace Expr

variable {e : Expr} (h : ∀ id ∈ e.children, id.Fits)
include h

/-- Each field is found under its own key, whatever else the form has. -/
theorem exists_form : ∃ record, Expr.form? e.kind = some record ∧
    record.read (("kind", .string e.kind) :: e.fields) = some (e.mapTypes TypeName.canonical) := by
  cases e <;>
    simp only [Form.children, List.forall_mem_append, List.forall_mem_cons, Option.mem_toList] at h
  all_goals
    refine ⟨_, rfl, ?_⟩
    simp_all [Form.kind, Expr.fields, mapTypes, required, optional_eq_field?, string?]

theorem shallow_fields : ∀ m ∈ e.fields, Shallow (levels + 1) m.2 := by
  cases e <;>
    simp only [Form.children, Expr.fields, List.forall_mem_append, List.forall_mem_cons,
      shallow_present_iff, shallow_orNull_iff] at h ⊢
  all_goals simp_all

theorem shallow_toJson : Shallow (levels + 2) e.toJson := by
  rw [toJson, shallow_object_iff, List.forall_mem_cons]
  exact ⟨shallow_string _, shallow_fields h⟩

theorem ofJson?_toJson : Expr.ofJson? e.toJson = some (e.mapTypes TypeName.canonical) := by
  -- two levels are far below what the reader of a tagged value allows
  have hshallow : Shallow (122 + 2) e.toJson := shallow_toJson h
  have hplain : e.toJson.isPlain (nestingLimit - 3) = true := hshallow.1
  have hkind : values "kind" e.fields = [] := by
    cases e <;> simp [Expr.fields]
  obtain ⟨record, hform, hread⟩ := exists_form h
  refine Option.bind_eq_some_iff.mpr ⟨(), if_pos hplain, ?_⟩
  simp [toJson, required_kind hkind, hform, hread]

end Expr

namespace Node

variable {node : Node} (h : ∀ id ∈ node.expr.children, id.Fits)
include h

theorem ofJson?_toJson : Node.ofJson? node.toJson = some (node.mapTypes TypeName.canonical) := by
  simp [Node.ofJson?, Node.record, toJson, required, optional_eq_field?, Expr.ofJson?_toJson h,
    mapTypes]

theorem shallow_toJson : Shallow (levels + 3) node.toJson := by
  rw [toJson, shallow_object_iff, List.forall_mem_append, shallow_present_iff]
  simp [Expr.shallow_toJson h]

end Node

/-! ### Features and classes -/

namespace Param

theorem ofJson?_toJson (param : Param) :
    Param.ofJson? param.toJson = some (param.mapTypes TypeName.canonical) := by
  simp [Param.ofJson?, Param.record, toJson, required, optional_eq_field?, string?, mapTypes]

@[simp] theorem shallow_toJson (param : Param) : Shallow (levels + 1) param.toJson := by
  rw [toJson, shallow_object_iff, List.forall_mem_append, shallow_present_iff]
  simp

@[simp] theorem listOf?_toJson (params : List Param) :
    listOf? Param.ofJson? (.array (params.map toJson)) =
      some (params.map (mapTypes TypeName.canonical)) :=
  listOf?_map fun param _ => param.ofJson?_toJson

@[simp] theorem field?_toJson (o : Option Param) :
    field? Param.ofJson? (o.map toJson).toList = some (o.map (mapTypes TypeName.canonical)) :=
  field?_present (fun _ => nofun) fun param _ => param.ofJson?_toJson

end Param

@[simp] theorem field?_string_orNull (o : Option String) :
    field? string? [orNull Json.string o] = some o :=
  field?_orNull_self (fun _ => nofun) fun _ _ => rfl

@[simp] theorem field?_string_present (o : Option String) :
    field? string? (o.map Json.string).toList = some o :=
  field?_present_self (fun _ => nofun) fun _ _ => rfl

theorem Method.ofFields?_fields {m : Method} (h : ∀ id ∈ m.body, id.Fits) :
    (Method.ofFields? (("kind", .string "Method") :: m.fields)).map Feature.method =
      some ((Feature.method m).mapTypes TypeName.canonical) := by
  simp [Method.ofFields?, Method.record, Method.fields, required, withDefault, optional_eq_field?,
    string?, ExprId.field?_toJson h, Feature.mapTypes]

theorem Attribute.ofFields?_fields {a : Attribute} (h : ∀ id ∈ a.init, id.Fits) :
    (Attribute.ofFields? (("kind", .string "Attribute") :: a.fields)).map Feature.attribute =
      some ((Feature.attribute a).mapTypes TypeName.canonical) := by
  simp [Attribute.ofFields?, Attribute.record, Attribute.fields, required, optional_eq_field?,
    string?, ExprId.field?_toJson h, Feature.mapTypes]

namespace Feature

variable {f : Feature} (h : ∀ id ∈ f.root, id.Fits)
include h

theorem shallow_toJson : Shallow (levels + 3) f.toJson := by
  rcases f with m | a
  · rw [toJson, shallow_object_iff, Method.fields]
    simp only [List.forall_mem_append, List.forall_mem_cons, shallow_present_iff,
      shallow_orNull_iff, shallow_array_iff, List.forall_mem_map]
    simp_all [root]
  · rw [toJson, shallow_object_iff, Attribute.fields]
    simp only [List.forall_mem_append, List.forall_mem_cons, shallow_present_iff,
      shallow_orNull_iff]
    simp_all [root]

theorem ofJson?_toJson : Feature.ofJson? f.toJson = some (f.mapTypes TypeName.canonical) := by
  have hshallow : Shallow (120 + 3) f.toJson := shallow_toJson h
  have hplain : f.toJson.isPlain (nestingLimit - 4) = true := hshallow.1
  refine Option.bind_eq_some_iff.mpr ⟨(), if_pos hplain, ?_⟩
  rcases f with m | a
  · have hkind : values "kind" m.fields = [] := by simp [Method.fields]
    have hread := Method.ofFields?_fields h
    rw [Method.ofFields?] at hread
    simp [toJson, required_kind hkind, Feature.form?, hread]
  · have hkind : values "kind" a.fields = [] := by simp [Attribute.fields]
    have hread := Attribute.ofFields?_fields h
    rw [Attribute.ofFields?] at hread
    simp [toJson, required_kind hkind, Feature.form?, hread]

end Feature

namespace Class

variable {c : Class} (h : ∀ id ∈ c.roots, id.Fits)
include h

theorem fits_root {f : Feature} (hf : f ∈ c.features) : ∀ id ∈ f.root, id.Fits :=
  fun id hid => h id (List.mem_filterMap.mpr ⟨f, hf, hid⟩)

theorem ofJson?_toJson : Class.ofJson? c.toJson = some (c.mapTypes TypeName.canonical) := by
  have hfeatures : listOf? Feature.ofJson? (.array (c.features.map Feature.toJson)) =
      some (c.features.map (Feature.mapTypes TypeName.canonical)) :=
    listOf?_map fun f hf => Feature.ofJson?_toJson (c.fits_root h hf)
  simp [Class.ofJson?, Class.record, toJson, required, withDefault, optional_eq_field?, string?,
    hfeatures, mapTypes]

theorem shallow_toJson : Shallow (levels + 5) c.toJson := by
  have hfeatures : ∀ f ∈ c.features, Shallow (levels + 3) f.toJson :=
    fun f hf => Feature.shallow_toJson (c.fits_root h hf)
  rw [toJson, shallow_object_iff]
  simp only [List.forall_mem_append, List.forall_mem_cons, shallow_present_iff, shallow_orNull_iff,
    shallow_array_iff, List.forall_mem_map]
  simpa using hfeatures

end Class

/-! ### Programs -/

namespace Program

/-- Every handle of the program fits into 64 bits. -/
def Addressable (p : Program) : Prop := ∀ id ∈ p.handles, id.Fits

instance (p : Program) : Decidable p.Addressable :=
  inferInstanceAs (Decidable (∀ id ∈ p.handles, id.Fits))

theorem addressable_iff {p : Program} :
    p.Addressable ↔
      (∀ c ∈ p.classes, ∀ id ∈ c.roots, id.Fits) ∧
      (∀ node ∈ p.exprs.nodes.toList, ∀ id ∈ node.expr.children, id.Fits) ∧
      ∀ c ∈ p.builtins, ∀ id ∈ c.roots, id.Fits := by
  rw [Addressable, handles, List.forall_mem_append, List.forall_mem_append, List.forall_mem_flatMap,
    List.forall_mem_flatMap, List.forall_mem_flatMap, and_assoc]

variable {p : Program} (h : p.Addressable)
include h

theorem ofJson?_toJson : Program.ofJson? p.toJson = some (p.mapTypes TypeName.canonical) := by
  obtain ⟨hclasses, hnodes, hbuiltins⟩ := addressable_iff.mp h
  have hclasses : listOf? Class.ofJson? (.array (p.classes.map Class.toJson)) =
      some (p.classes.map (Class.mapTypes TypeName.canonical)) :=
    listOf?_map fun c hc => Class.ofJson?_toJson (hclasses c hc)
  have hbuiltins : listOf? Class.ofJson? (.array (p.builtins.map Class.toJson)) =
      some (p.builtins.map (Class.mapTypes TypeName.canonical)) :=
    listOf?_map fun c hc => Class.ofJson?_toJson (hbuiltins c hc)
  have hnodes : listOf? Node.ofJson? (.array (p.exprs.nodes.toList.map Node.toJson)) =
      some (p.exprs.nodes.toList.map (Node.mapTypes TypeName.canonical)) :=
    listOf?_map fun node hnode => Node.ofJson?_toJson (hnodes node hnode)
  have hexprs : Arena.ofJson? p.exprs.toJson = some (p.exprs.mapTypes TypeName.canonical) := by
    simp [Arena.ofJson?, Arena.toJson, hnodes, Arena.mapTypes, ← Array.toList_inj]
  -- the list of built-in classes is left out where it is empty
  by_cases hempty : p.builtins = []
  · simp [Program.ofJson?, Program.record, toJson, required, withDefault, hclasses, hexprs, hempty,
      mapTypes]
  · simp [Program.ofJson?, Program.record, toJson, required, withDefault, hclasses, hexprs,
      hbuiltins, hempty, mapTypes]

theorem shallow_toJson : Shallow (levels + 7) p.toJson := by
  obtain ⟨hclasses, hnodes, hbuiltins⟩ := addressable_iff.mp h
  have hclass {classes : List Class}
      (hclasses : ∀ c ∈ classes, ∀ id ∈ c.roots, id.Fits) :
      Shallow (levels + 6) (.array (classes.map Class.toJson)) :=
    shallow_array_iff.mpr (List.forall_mem_map.mpr fun c hc => Class.shallow_toJson (hclasses c hc))
  have hexprs : Shallow (levels + 6) p.exprs.toJson :=
    shallow_array_iff.mpr
      (List.forall_mem_map.mpr fun node hnode => Node.shallow_toJson (hnodes node hnode))
  rw [toJson, shallow_object_iff]
  by_cases hempty : p.builtins = []
  · simp [hempty, hclass hclasses, hexprs]
  · simp [hempty, hclass hclasses, hexprs, hclass hbuiltins]

/-- In any layout, the text of a program loads, and gives the program with its types as they are
read. -/
theorem load?_write {layout : Layout} (hlayout : layout.IsBlank) :
    load? (String.ofList (write layout 0 p.toJson)) = some (p.mapTypes TypeName.canonical) := by
  have hshallow : Shallow (0 + 7) p.toJson := shallow_toJson h
  rw [load?, parse?_write hlayout hshallow.2, Option.bind_some, ofJson?_toJson h]

end Program

/-! ### What is read -/

/-- A handle that was read fits into 64 bits. -/
theorem ExprId.gives_ofJson? : Gives ExprId.Fits ExprId.ofJson? := by
  intro value id h
  obtain ⟨index, hindex, rfl⟩ := Option.map_eq_some_iff.mp h
  unfold natural? at hindex
  split at hindex
  · split at hindex
    · next hlt => exact Option.some_inj.mp hindex ▸ hlt
    · cases hindex
  · cases hindex

/-- A type that was read is read as itself. -/
theorem TypeName.gives_ofJson? : Gives (fun type => type.canonical = type) TypeName.ofJson? := by
  intro value type h
  obtain ⟨name, -, rfl⟩ := Option.map_eq_some_iff.mp h
  exact canonical_ofText name

section

variable {key : String} {members : Members}

theorem fits_of_required {id : ExprId} (h : required ExprId.ofJson? key members = some id) :
    id.Fits := ExprId.gives_ofJson?.required h

theorem fits_of_optional {o : Option ExprId}
    (h : optional ExprId.ofJson? key members = some o) : ∀ id ∈ o, id.Fits :=
  ExprId.gives_ofJson?.optional h

theorem fits_of_listOf? {ids : List ExprId}
    (h : required ExprId.listOfJson? key members = some ids) :
    ∀ id ∈ ids, id.Fits := ExprId.gives_ofJson?.listOf?.required h

theorem canonical_of_optional {o : Option TypeName}
    (h : optional TypeName.ofJson? key members = some o) : ∀ type ∈ o, type.canonical = type :=
  TypeName.gives_ofJson?.optional h

theorem Expr.gives_form {kind : String} {record : Record Expr} {e : Expr}
    (hform : Expr.form? kind = some record) (h : record.read members = some e) :
    (∀ id ∈ e.children, id.Fits) ∧ ∀ type ∈ e.types, type.canonical = type := by
  unfold Expr.form? at hform
  rw [Record.read_eq_some_iff] at h
  split at hform <;> cases hform <;>
    simp only [Record.exists_read_seq, Record.exists_read_map, Record.read_pure,
      Record.read_required, Record.read_nullable, Record.read_optional, Option.some_inj] at h
  -- every handle and every type of the form comes from one of its fields
  all_goals
    grind [Form.children, Expr.types, fits_of_required, fits_of_optional, fits_of_listOf?,
      canonical_of_optional]

theorem Expr.gives_ofJson? : Gives (fun e => (∀ id ∈ e.children, id.Fits) ∧
    ∀ type ∈ e.types, type.canonical = type) Expr.ofJson? := by
  intro value e h
  obtain ⟨-, -, h⟩ := Option.bind_eq_some_iff.mp h
  obtain ⟨kind, record, members, hform, hread⟩ := exists_read_of_tagged? h
  exact Expr.gives_form hform hread

theorem Node.gives_ofJson? : Gives (fun node => (∀ id ∈ node.expr.children, id.Fits) ∧
    ∀ type ∈ node.types, type.canonical = type) Node.ofJson? := by
  refine .record fun members node h => ?_
  rw [Record.read_eq_some_iff] at h
  simp only [Node.record, Record.exists_read_seq, Record.exists_read_map, Record.read_required,
    Record.read_optional] at h
  obtain ⟨line, -, expr, hexpr, recordedType, htype, rfl⟩ := h
  obtain ⟨hchildren, htypes⟩ := Expr.gives_ofJson?.required hexpr
  refine ⟨hchildren, List.forall_mem_append.mpr ⟨htypes, ?_⟩⟩
  simpa using canonical_of_optional htype

theorem Param.gives_ofJson? :
    Gives (fun param => ∀ type ∈ param.types, type.canonical = type) Param.ofJson? := by
  refine .record fun members param h => ?_
  rw [Record.read_eq_some_iff] at h
  simp only [Param.record, Record.exists_read_seq, Record.exists_read_map, Record.read_required,
    Record.read_optional] at h
  obtain ⟨line, -, name, -, typeName, -, recordedType, htype, rfl⟩ := h
  simpa [Param.types] using canonical_of_optional htype

theorem Param.canonical_of_optional {o : Option Param}
    (h : Json.optional Param.ofJson? key members = some o) :
    ∀ type ∈ o.toList.flatMap Param.types, type.canonical = type := by
  have hparam := Param.gives_ofJson?.optional h
  rw [List.forall_mem_flatMap]
  simpa using hparam

theorem Method.gives_record {m : Method} (h : Method.record.read members = some m) :
    (∀ id ∈ (Feature.method m).root, id.Fits) ∧
      ∀ type ∈ (Feature.method m).types, type.canonical = type := by
  rw [Record.read_eq_some_iff] at h
  simp only [Method.record, Record.exists_read_seq, Record.exists_read_map, Record.read_required,
    Record.read_optional, Record.read_withDefault] at h
  -- the fields are read in their order, and only those with handles or types are of interest
  obtain ⟨line, -, name, -, params, hparams, returnType, -, body, hbody, recordedReturn, hreturn,
    recordedSelf, hself, recordedOwner, -, rfl⟩ := h
  have hparams := Param.gives_ofJson?.listOf?.withDefault (List.forall_mem_nil _) hparams
  rw [Feature.types, List.forall_mem_append, List.forall_mem_append]
  refine ⟨fits_of_optional hbody, ⟨List.forall_mem_flatMap.mpr hparams, ?_⟩,
    Param.canonical_of_optional hself⟩
  simpa using canonical_of_optional hreturn

theorem Attribute.gives_record {a : Attribute} (h : Attribute.record.read members = some a) :
    (∀ id ∈ (Feature.attribute a).root, id.Fits) ∧
      ∀ type ∈ (Feature.attribute a).types, type.canonical = type := by
  rw [Record.read_eq_some_iff] at h
  simp only [Attribute.record, Record.exists_read_seq, Record.exists_read_map,
    Record.read_required, Record.read_optional] at h
  obtain ⟨line, -, name, -, typeName, -, init, hinit, recordedType, htype, recordedSelf, hself,
    rfl⟩ := h
  refine ⟨fits_of_optional hinit,
    List.forall_mem_append.mpr ⟨?_, Param.canonical_of_optional hself⟩⟩
  simpa using canonical_of_optional htype

theorem Feature.gives_ofJson? : Gives (fun f => (∀ id ∈ f.root, id.Fits) ∧
    ∀ type ∈ f.types, type.canonical = type) Feature.ofJson? := by
  intro value f h
  obtain ⟨-, -, h⟩ := Option.bind_eq_some_iff.mp h
  obtain ⟨kind, record, members, hform, hread⟩ := exists_read_of_tagged? h
  unfold Feature.form? at hform
  split at hform <;> cases hform
  · obtain ⟨m, hm, rfl⟩ := Option.map_eq_some_iff.mp hread
    exact Method.gives_record hm
  · obtain ⟨a, ha, rfl⟩ := Option.map_eq_some_iff.mp hread
    exact Attribute.gives_record ha

theorem Class.gives_ofJson? : Gives (fun c => (∀ id ∈ c.roots, id.Fits) ∧
    ∀ type ∈ c.types, type.canonical = type) Class.ofJson? := by
  refine .record fun members c h => ?_
  rw [Record.read_eq_some_iff] at h
  simp only [Class.record, Record.exists_read_seq, Record.exists_read_map, Record.read_required,
    Record.read_optional, Record.read_withDefault] at h
  obtain ⟨line, -, name, -, parent, -, features, hfeatures, recordedParent, -, rfl⟩ := h
  have hfeatures := Feature.gives_ofJson?.listOf?.withDefault (List.forall_mem_nil _) hfeatures
  constructor
  · intro id hid
    obtain ⟨f, hf, hroot⟩ := List.mem_filterMap.mp hid
    exact (hfeatures f hf).1 id hroot
  · exact List.forall_mem_flatMap.mpr fun f hf => (hfeatures f hf).2

/-- A program that was read can be written, and all of its recorded types are read as themselves. -/
theorem Program.gives_ofJson? : Gives (fun p => p.Addressable ∧
    ∀ type ∈ p.types, type.canonical = type) Program.ofJson? := by
  refine .record fun members p h => ?_
  rw [Record.read_eq_some_iff] at h
  simp only [Program.record, Record.exists_read_seq, Record.exists_read_map, Record.read_required,
    Record.read_withDefault] at h
  obtain ⟨line, -, classes, hclasses, exprs, hexprs, builtins, hbuiltins, rfl⟩ := h
  have hclasses := Class.gives_ofJson?.listOf?.required hclasses
  have hbuiltins := Class.gives_ofJson?.listOf?.withDefault (List.forall_mem_nil _) hbuiltins
  have harena : Gives (fun a : Arena => ∀ node ∈ a.nodes.toList,
      (∀ id ∈ node.expr.children, id.Fits) ∧ ∀ type ∈ node.types, type.canonical = type)
      Arena.ofJson? := by
    intro value a ha
    obtain ⟨nodes, hnodes, rfl⟩ := Option.map_eq_some_iff.mp ha
    exact Node.gives_ofJson?.listOf? value nodes hnodes
  have hnodes := harena.withDefault (List.forall_mem_nil _) hexprs
  constructor
  · exact addressable_iff.mpr
      ⟨fun c hc => (hclasses c hc).1, fun node hnode => (hnodes node hnode).1,
      fun c hc => (hbuiltins c hc).1⟩
  · simp only [Program.types, List.forall_mem_append, List.forall_mem_flatMap]
    exact ⟨⟨fun c hc => (hclasses c hc).2, fun node hnode => (hnodes node hnode).2⟩,
      fun c hc => (hbuiltins c hc).2⟩

end

/-! ### Texts -/

namespace Program

/-- A program is read back as itself if and only if no class is recorded under a reserved name. -/
theorem mapTypes_canonical_eq_self_iff {p : Program} :
    p.mapTypes TypeName.canonical = p ↔
      ∀ name, TypeName.object name ∈ p.types → TypeName.IsClassName name := by
  rw [mapTypes_eq_self_iff]
  constructor
  · intro h name hname
    exact TypeName.canonical_eq_self_iff.mp (h _ hname) name rfl
  · intro h type htype
    apply TypeName.canonical_eq_self_iff.mpr
    rintro name rfl
    exact h name htype

theorem loaded_of_load? {text : String} {p : Program} (h : load? text = some p) :
    p.Addressable ∧ p.mapTypes TypeName.canonical = p := by
  obtain ⟨value, -, hvalue⟩ := Option.bind_eq_some_iff.mp h
  obtain ⟨haddressable, htypes⟩ := Program.gives_ofJson? value p hvalue
  exact ⟨haddressable, mapTypes_eq_self_iff.mpr htypes⟩

/-- Both texts of a program load. What is loaded is the program, with every class that is recorded
under a reserved name replaced by the type of that name: it is the program itself if and only if
there is no such class, and always if the program was loaded from a text. -/
theorem faithful_texts (p : Program) :
    (p.Addressable →
      load? p.compact = some (p.mapTypes TypeName.canonical) ∧
      load? p.pretty = some (p.mapTypes TypeName.canonical) ∧
      (load? p.compact = some p ↔
        ∀ name, TypeName.object name ∈ p.types → TypeName.IsClassName name) ∧
      (load? p.pretty = some p ↔
        ∀ name, TypeName.object name ∈ p.types → TypeName.IsClassName name)) ∧
    ∀ text, load? text = some p → load? p.compact = some p ∧ load? p.pretty = some p := by
  have hcompact (h : p.Addressable) : load? p.compact = some (p.mapTypes TypeName.canonical) :=
    load?_write h isBlank_compact
  have hpretty (h : p.Addressable) : load? p.pretty = some (p.mapTypes TypeName.canonical) :=
    load?_write h isBlank_pretty
  constructor
  · intro h
    refine ⟨hcompact h, hpretty h, ?_, ?_⟩
    · rw [hcompact h, Option.some_inj, mapTypes_canonical_eq_self_iff]
    · rw [hpretty h, Option.some_inj, mapTypes_canonical_eq_self_iff]
  · intro text htext
    obtain ⟨haddressable, htypes⟩ := loaded_of_load? htext
    rw [hcompact haddressable, hpretty haddressable, htypes]
    exact ⟨rfl, rfl⟩

/-- A program with the largest numbers, a text with escapes, and an attribute whose type is recorded
as a class with the name of the numbers. -/
def misnamed : Program where
  line := 4294967295
  classes := [
    { line := 1, name := "Main", parent := none, recordedParent := some "Object"
      features := [
        .attribute { line := 2, name := "n", typeName := "Int", init := some ⟨18446744073709551615⟩
                     recordedType := some (.object "Int"), recordedSelf := none }] }]
  exprs := ⟨#[
    ⟨3, .intConstant Int64.minValue, some .int⟩,
    ⟨4, .stringConstant "\"\x01\n\\é", some (.object "String")⟩,
    ⟨5, .block [⟨0⟩, ⟨18446744073709551614⟩], none⟩]⟩
  builtins := []

/-- The class is read as the numbers, and after that nothing changes any more. -/
theorem faithful_texts_misnamed :
    misnamed.Addressable ∧
      load? misnamed.compact = some (misnamed.mapTypes TypeName.canonical) ∧
      load? misnamed.compact ≠ some misnamed ∧
      load? (misnamed.mapTypes TypeName.canonical).pretty =
        some (misnamed.mapTypes TypeName.canonical) := by
  have haddressable : misnamed.Addressable := by decide
  obtain ⟨hcompact, -, hiff, -⟩ := (faithful_texts misnamed).1 haddressable
  refine ⟨haddressable, hcompact, fun hsame => ?_, ?_⟩
  · exact (hiff.mp hsame "Int" (by decide)).1 rfl
  · exact ((faithful_texts (misnamed.mapTypes TypeName.canonical)).2 misnamed.compact hcompact).2

end Program

end Lcpl
