import Mathlib.Logic.Relation
import Lcpl.Format.Text
import Lcpl.Proofs.Format.Schema

/-!
# Loading depends on known fields only

Every part of a program is read by its known fields. The proofs follow the readers field by field.

## Main definitions

* `Program.Edited`, `Program.Repeated` — a text after edits, and a text with a known field repeated

## Main results

* `Schema.steady_program` — a program is read steadily
* `Program.loads_by_known_fields` — what this means for texts
-/

namespace Lcpl

namespace Schema

open Json (string? listOf?)

variable {r : Reading}

/-! ### Values without parts -/

theorem steady_string : Steady r string? :=
  .of_scalar (fun _ => rfl) fun _ => rfl

theorem steady_line : Steady r Line.ofJson? :=
  .of_scalar (fun _ => rfl) fun _ => rfl

theorem steady_exprId : Steady r ExprId.ofJson? :=
  .of_scalar (fun _ => rfl) fun _ => rfl

theorem steady_int64 : Steady r Int64.ofJson? :=
  .of_scalar (fun _ => rfl) fun _ => rfl

theorem steady_typeName : Steady r TypeName.ofJson? :=
  .of_scalar (fun _ => rfl) fun _ => rfl

theorem steady_varRefKind : Steady r VarRef.kind? :=
  .of_scalar (fun _ => rfl) fun _ => rfl

theorem steady_exprIds : Steady .raw ExprId.listOfJson? := .listOf? steady_exprId nofun

/-- The name of an operator is a text, or the only key of an object in which nothing can be
edited. -/
theorem steady_operatorName : Steady .raw operatorName? := by
  intro v name hname
  refine ⟨fun v' hedit => ?_, fun v' hrepeat => absurd hrepeat not_repeat_raw⟩
  unfold operatorName? at hname
  split at hname
  · cases hedit
  · obtain ⟨value, rfl, rfl | hvalue⟩ := hedit.exists_of_singleton
    · exact hname
    · exact absurd rfl hvalue.ne_null.1
  · obtain ⟨value, rfl, rfl | hvalue⟩ := hedit.exists_of_singleton
    · exact hname
    · rw [hvalue.eq_of_nil]
      exact hname
  · cases hname

/-- A reader that goes by the name alone. -/
theorem Steady.bind_name {α : Type} {read : Json → Option α} {f : String → Option α}
    (hread : ∀ v, read v = (operatorName? v).bind f) : Steady .raw read := by
  intro v x hx
  refine ⟨fun v' hedit => ?_, fun v' hrepeat => absurd hrepeat not_repeat_raw⟩
  rw [hread] at hx ⊢
  obtain ⟨name, hname, hx⟩ := Option.bind_eq_some_iff.mp hx
  rw [(steady_operatorName v name hname).1 v' hedit]
  exact hx

theorem steady_binaryOperator : Steady .raw BinaryOperator.ofJson? := .bind_name fun _ => rfl

theorem steady_unaryOperator : Steady .raw UnaryOperator.ofJson? := .bind_name fun _ => rfl

/-! ### Parts -/

theorem steady_methodRef : Steady (.one .methodRef) MethodRef.ofJson? :=
  .of_record fun _ =>
    ByFields.map (.required steady_string) _ |>.seq (.required steady_string)

theorem steady_param : Steady (.one .param) Param.ofJson? :=
  .of_record fun _ =>
    ByFields.map (.required steady_line) _ |>.seq (.required steady_string)
      |>.seq (.required steady_string) |>.seq (.optional steady_typeName)

theorem byFields_varRef {kind : String} {record : Json.Record VarRef}
    (h : VarRef.form? kind = some record) : ByFields (varRefFields kind) record := by
  unfold VarRef.form? at h
  split at h <;> cases h
  · exact ByFields.map (.required steady_string) _ |>.seq (.required steady_string)
  · exact ByFields.map (.required steady_string) _
  · exact ByFields.map (.required steady_string) _ |>.seq (.required steady_line)
  · exact .pure _

theorem steady_varRef : Steady (.one .varRef) VarRef.ofJson? :=
  .of_forms (fun _ => rfl) steady_varRefKind fun _ _ => byFields_varRef

theorem byFields_expr {kind : String} {record : Json.Record Expr}
    (h : Expr.form? kind = some record) : ByFields (exprFields kind) record := by
  unfold Expr.form? at h
  split at h <;> cases h
  · exact ByFields.map (.required steady_exprIds) _
  · exact ByFields.map (.required steady_string) _ |>.seq (.required steady_string)
      |>.seq (.nullable steady_exprId) |>.seq (.nullable steady_exprId)
      |>.seq (.optional steady_typeName)
  · exact ByFields.map (.nullable steady_exprId) _ |>.seq (.required steady_string)
      |>.seq (.required steady_exprIds) |>.seq (.optional steady_methodRef)
  · exact ByFields.map (.required steady_exprId) _ |>.seq (.required steady_string)
      |>.seq (.required steady_string) |>.seq (.required steady_exprIds)
      |>.seq (.optional steady_typeName) |>.seq (.optional steady_methodRef)
  · exact ByFields.map (.required steady_exprId) _ |>.seq (.required steady_exprId)
      |>.seq (.nullable steady_exprId)
  · exact ByFields.map (.required steady_exprId) _ |>.seq (.required steady_exprId)
  · exact ByFields.map (.required steady_string) _ |>.seq (.required steady_exprId)
  · exact ByFields.map (.required steady_string) _
  · exact ByFields.map (.required steady_exprId) _ |>.seq (.required steady_exprId)
      |>.seq (.required steady_exprId)
  · exact ByFields.map (.required steady_string) _ |>.seq (.required steady_exprId)
      |>.seq (.optional steady_varRef)
  · exact ByFields.map (.required steady_exprId) _ |>.seq (.required steady_exprId)
  · exact ByFields.map (.required steady_binaryOperator) _ |>.seq (.required steady_exprId)
      |>.seq (.required steady_exprId)
  · exact ByFields.map (.required steady_unaryOperator) _ |>.seq (.required steady_exprId)
  · exact ByFields.map (.required steady_exprId) _ |>.seq (.required steady_exprId)
  · exact ByFields.map (.required steady_string) _ |>.seq (.optional steady_varRef)
  · exact ByFields.map (.required steady_int64) _
  · exact ByFields.map (.required steady_string) _
  · exact .pure _

theorem steady_expr : Steady (.one .expr) Expr.ofJson? := by
  have hforms : Steady (.one .expr) (Json.tagged? string? Expr.form?) :=
    .of_forms (fun _ => rfl) steady_string fun _ _ => byFields_expr
  exact hforms.of_guard fun _ => rfl

theorem steady_node : Steady (.one .node) Node.ofJson? :=
  .of_record fun _ =>
    ByFields.map (.required steady_line) _ |>.seq (.required steady_expr)
      |>.seq (.optional steady_typeName)

theorem steady_arena : Steady (.many .node) Arena.ofJson? := by
  have hnodes : Steady (.many .node) (listOf? Node.ofJson?) := .listOf? steady_node nofun
  exact hnodes.map _

theorem steady_params : Steady (.many .param) (listOf? Param.ofJson?) :=
  .listOf? steady_param nofun

theorem byFields_method : ByFields (featureFields "Method") Method.record :=
  ByFields.map (.required steady_line) _ |>.seq (.required steady_string)
    |>.seq (.withDefault steady_params) |>.seq (.required steady_string)
    |>.seq (.optional steady_exprId) |>.seq (.optional steady_typeName)
    |>.seq (.optional steady_param) |>.seq (.optional steady_string)

theorem byFields_attribute : ByFields (featureFields "Attribute") Attribute.record :=
  ByFields.map (.required steady_line) _ |>.seq (.required steady_string)
    |>.seq (.required steady_string) |>.seq (.optional steady_exprId)
    |>.seq (.optional steady_typeName) |>.seq (.optional steady_param)

theorem byFields_feature {kind : String} {record : Json.Record Feature}
    (h : Feature.form? kind = some record) : ByFields (featureFields kind) record := by
  unfold Feature.form? at h
  split at h <;> cases h
  · exact byFields_method.map _
  · exact byFields_attribute.map _

theorem steady_feature : Steady (.one .feature) Feature.ofJson? := by
  have hforms : Steady (.one .feature) (Json.tagged? string? Feature.form?) :=
    .of_forms (fun _ => rfl) steady_string fun _ _ => byFields_feature
  exact hforms.of_guard fun _ => rfl

theorem steady_features : Steady (.many .feature) (listOf? Feature.ofJson?) :=
  .listOf? steady_feature nofun

theorem steady_class : Steady (.one .classDef) Class.ofJson? :=
  .of_record fun _ =>
    ByFields.map (.required steady_line) _ |>.seq (.required steady_string)
      |>.seq (.optional steady_string) |>.seq (.withDefault steady_features)
      |>.seq (.optional steady_string)

theorem steady_classes : Steady (.many .classDef) (listOf? Class.ofJson?) :=
  .listOf? steady_class nofun

theorem steady_program : Steady (.one .program) Program.ofJson? :=
  .of_record fun _ =>
    ByFields.map (.withDefault steady_line) _ |>.seq (.required steady_classes)
      |>.seq (.withDefault steady_arena) |>.seq (.withDefault steady_classes)

theorem Steady.keep {α : Type} {read : Json → Option α} {v v' : Json} {x : α} (h : Steady r read)
    (hedits : Relation.ReflTransGen (Edit r) v v') (hx : read v = some x) : read v' = some x := by
  induction hedits with
  | refl => exact hx
  | tail _ hedit ih => exact (h _ x ih).1 _ hedit

end Schema

namespace Program

open Schema (Edit Repeat)
open Json (Spelled)

/-- The second text is the first one with other white space, and after any number of edits: the
members of objects permuted, and members dropped that the part does not know. -/
def Edited (text text' : String) : Prop :=
  ∃ v v', Spelled v text ∧ Relation.ReflTransGen (Edit (.one .program)) v v' ∧ Spelled v' text'

/-- The second text is the first one with other white space, and with a known field added to an
object that has it already. -/
def Repeated (text text' : String) : Prop :=
  ∃ v v', Spelled v text ∧ Repeat (.one .program) v v' ∧ Spelled v' text'

theorem load?_of_spelled {text : String} {v : Json} (hv : Spelled v text) :
    load? text = ofJson? v := by
  rw [load?, Json.parse?_eq_some_iff.mpr hv, Option.bind_some]

/-- Loading depends on the known fields only. A text that loads still loads as the same program when
white space is changed, members of objects are permuted, and unknown members are dropped, whether
the parts around are objects or arrays. It no longer loads when a known field is added for the
second time. -/
theorem loads_by_known_fields {text : String} {p : Program} (h : load? text = some p) :
    (∃ v, Spelled v text) ∧ (∀ text', Edited text text' → load? text' = some p) ∧
      ∀ text', Repeated text text' → load? text' = none := by
  refine ⟨?_, ?_, ?_⟩
  · obtain ⟨v, hv, -⟩ := Option.bind_eq_some_iff.mp h
    exact ⟨v, Json.parse?_eq_some_iff.mp hv⟩
  · rintro text' ⟨v, v', hv, hedits, hv'⟩
    rw [load?_of_spelled hv] at h
    rw [load?_of_spelled hv']
    exact Schema.steady_program.keep hedits h
  · rintro text' ⟨v, v', hv, hrepeat, hv'⟩
    rw [load?_of_spelled hv] at h
    rw [load?_of_spelled hv']
    exact (Schema.steady_program v p h).2 v' hrepeat

/-- A program without classes and with one node, as an array of its fields. -/
def single (node : Json.Members) : Json :=
  .array [.integer 1, .array [], .array [.object node]]

/-- A node with a field that nodes do not know, and with a constant whose kind comes last. -/
def kindLast : Json.Members :=
  [("hue", .null), ("line", .integer 3),
    ("expr", .object [("value", .integer 7), ("kind", .string "IntConstant")])]

/-- The node without that field, and with the kind first. -/
def kindFirst : Json.Members :=
  [("line", .integer 3),
    ("expr", .object [("kind", .string "IntConstant"), ("value", .integer 7)])]

/-- The node with the kind at both ends. -/
def kindTwice : Json.Members :=
  [("hue", .null), ("line", .integer 3),
    ("expr", .object [("kind", .null), ("value", .integer 7), ("kind", .string "IntConstant")])]

/-- The unknown field and the place of the kind do not matter; a second kind does. -/
theorem loads_by_known_fields_constant :
    load? (single kindLast).compact = some ⟨1, [], ⟨#[⟨3, .intConstant 7, none⟩]⟩, []⟩ ∧
    load? (single kindFirst).pretty = some ⟨1, [], ⟨#[⟨3, .intConstant 7, none⟩]⟩, []⟩ ∧
    load? (single kindTwice).compact = none := by
  have hlast : Spelled (single kindLast) (single kindLast).compact :=
    Json.spelled_write Json.isBlank_compact (by simp [single, kindLast, Json.tokens,
      Json.memberTokens, Json.itemTokens, Json.Token.IsExact, UInt64.size])
  have hfirst : Spelled (single kindFirst) (single kindFirst).pretty :=
    Json.spelled_write Json.isBlank_pretty (by simp [single, kindFirst, Json.tokens,
      Json.memberTokens, Json.itemTokens, Json.Token.IsExact, UInt64.size])
  have htwice : Spelled (single kindTwice) (single kindTwice).compact :=
    Json.spelled_write Json.isBlank_compact (by simp [single, kindTwice, Json.tokens,
      Json.memberTokens, Json.itemTokens, Json.Token.IsExact, UInt64.size])
  have hload : load? (single kindLast).compact =
      some ⟨1, [], ⟨#[⟨3, .intConstant 7, none⟩]⟩, []⟩ := by
    rw [load?_of_spelled hlast]
    decide +kernel
  have hexpr (front back : Json.Members) (v : Json) :
      ("expr", .one .expr) ∈ Schema.Part.node.known (.object (front ++ ("expr", v) :: back)) := by
    simp [Schema.Part.known]
  have hdrop : Edit (.one .node) (.object kindLast) (.object kindLast.tail) :=
    .drop [] kindLast.tail (by simp [Schema.Part.known])
  have hpermute : Edit (.one .node) (.object kindLast.tail) (.object kindFirst) :=
    .field [("line", .integer 3)] [] (hexpr ..) (.permute (.swap ..))
  have hrepeat : Repeat (.one .node) (.object kindLast) (.object kindTwice) :=
    .field [("hue", .null), ("line", .integer 3)] [] (hexpr ..)
      (.here [] [("value", .integer 7), ("kind", .string "IntConstant")]
        (by simp [Schema.Part.known]) (by simp))
  -- what is done to the node is done to the third place of the program
  have hnode {node node' : Json.Members} (h : Edit (.one .node) (.object node) (.object node')) :
      Edit (.one .program) (single node) (single node') :=
    .place [.integer 1, .array []] [] rfl (.item [] [] h)
  have hedits : Relation.ReflTransGen (Edit (.one .program)) (single kindLast) (single kindFirst) :=
    (Relation.ReflTransGen.single (hnode hdrop)).tail (hnode hpermute)
  obtain ⟨-, hedited, hrepeated⟩ := loads_by_known_fields hload
  refine ⟨hload, hedited _ ⟨_, _, hlast, hedits, hfirst⟩, hrepeated _ ⟨_, _, hlast, ?_, htwice⟩⟩
  exact .place [.integer 1, .array []] [] rfl (.item [] [] hrepeat)

end Program

end Lcpl
