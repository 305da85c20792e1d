import Lcpl.Json.Field
import Lcpl.Tree.Program

/-!
# Writing programs as JSON

Fields are written in a fixed order, `kind` first. A slot without expression and a class without
declared parent are written as null; an annotation that is not there is left out.

## Main definitions

* `Expr.toJson`, `Node.toJson`, `Feature.toJson`, `Class.toJson`, `Program.toJson` and others — the
  value that a part of a program is written as
-/

namespace Lcpl

open Json (orNull present)

/-- A line number. -/
def Line.toJson (line : Line) : Json := .integer line.toNat

/-- A handle. -/
def ExprId.toJson (id : ExprId) : Json := .integer id.index

/-- A recorded type, by its name. -/
def TypeName.toJson (type : TypeName) : Json := .string type.text

/-- A list of handles. -/
def ExprId.listToJson (ids : List ExprId) : Json := .array (ids.map ExprId.toJson)

/-- A resolved variable. -/
def VarRef.toJson : VarRef → Json
  | .attribute className name =>
      .object [("kind", .string "Attribute"), ("class", .string className), ("name", .string name)]
  | .param name => .object [("kind", .string "Param"), ("name", .string name)]
  | .letBound name line =>
      .object [("kind", .string "Local"), ("name", .string name), ("line", line.toJson)]
  | .receiver => .object [("kind", .string "SelfParam")]

/-- A resolved method. -/
def MethodRef.toJson (method : MethodRef) : Json :=
  .object [("class", .string method.className), ("name", .string method.name)]

/-- An operator on two numbers, by its name. -/
def BinaryOperator.toJson : BinaryOperator → Json
  | .multiplication => .string "Multiplication"
  | .division => .string "Division"
  | .subtraction => .string "Subtraction"
  | .lessThan => .string "LessThan"
  | .lessThanEqual => .string "LessThanEqual"

/-- An operator on one number, by its name. -/
def UnaryOperator.toJson : UnaryOperator → Json
  | .minus => .string "Minus"
  | .not => .string "Not"

/-- The fields of an expression besides its kind. -/
def Expr.fields : Expr → Json.Members
  | .block items => [("exprs", ExprId.listToJson items)]
  | .localDefinition name typeName init scope recordedType =>
      [("name", .string name), ("type_name", .string typeName),
        ("init", orNull ExprId.toJson init), ("scope", orNull ExprId.toJson scope)] ++
        present "variable_type" TypeName.toJson recordedType
  | .dispatch receiver name args recordedMethod =>
      [("object", orNull ExprId.toJson receiver), ("name", .string name),
        ("args", ExprId.listToJson args)] ++
        present "method" MethodRef.toJson recordedMethod
  | .staticDispatch receiver className name args recordedReceiver recordedMethod =>
      [("object", receiver.toJson), ("static_type", .string className), ("name", .string name),
        ("args", ExprId.listToJson args)] ++
        present "self_type" TypeName.toJson recordedReceiver ++
        present "method" MethodRef.toJson recordedMethod
  | .conditional condition thenBranch elseBranch =>
      [("condition", condition.toJson), ("then_expr", thenBranch.toJson),
        ("else_expr", orNull ExprId.toJson elseBranch)]
  | .whileLoop condition body => [("condition", condition.toJson), ("body", body.toJson)]
  | .cast typeName operand => [("type_name", .string typeName), ("expr", operand.toJson)]
  | .newObject typeName => [("type_name", .string typeName)]
  | .substring subject first last =>
      [("string", subject.toJson), ("start", first.toJson), ("end", last.toJson)]
  | .assignment target value recordedVariable =>
      [("symbol", .string target), ("expr", value.toJson)] ++
        present "variable" VarRef.toJson recordedVariable
  | .addition lhs rhs => [("lhs", lhs.toJson), ("rhs", rhs.toJson)]
  | .binary operator lhs rhs =>
      [("op", operator.toJson), ("lhs", lhs.toJson), ("rhs", rhs.toJson)]
  | .unary operator operand => [("op", operator.toJson), ("expr", operand.toJson)]
  | .equality lhs rhs => [("lhs", lhs.toJson), ("rhs", rhs.toJson)]
  | .symbol name recordedVariable =>
      [("name", .string name)] ++ present "variable" VarRef.toJson recordedVariable
  | .intConstant value => [("value", .integer value.toInt)]
  | .stringConstant value => [("value", .string value)]
  | .voidConstant => []

/-- An expression. -/
def Expr.toJson (expr : Expr) : Json := .object (("kind", .string expr.kind) :: expr.fields)

/-- An expression node. -/
def Node.toJson (node : Node) : Json :=
  .object ([("line", node.line.toJson), ("expr", node.expr.toJson)] ++
    present "ty" TypeName.toJson node.recordedType)

/-- An arena, as the list of its nodes. -/
def Arena.toJson (arena : Arena) : Json := .array (arena.nodes.toList.map Node.toJson)

/-- A formal parameter. -/
def Param.toJson (param : Param) : Json :=
  .object ([("line", param.line.toJson), ("name", .string param.name),
    ("type_name", .string param.typeName)] ++
    present "variable_type" TypeName.toJson param.recordedType)

/-- The fields of a method. -/
def Method.fields (m : Method) : Json.Members :=
  [("line", m.line.toJson), ("name", .string m.name),
    ("params", .array (m.params.map Param.toJson)),
    ("return_type", .string m.returnType), ("body", orNull ExprId.toJson m.body)] ++
    present "return_type_data" TypeName.toJson m.recordedReturn ++
    present "self_param" Param.toJson m.recordedSelf ++
    present "owner" Json.string m.recordedOwner

/-- The fields of an attribute. -/
def Attribute.fields (a : Attribute) : Json.Members :=
  [("line", a.line.toJson), ("name", .string a.name), ("type_name", .string a.typeName),
    ("init", orNull ExprId.toJson a.init)] ++
    present "type_data" TypeName.toJson a.recordedType ++
    present "init_self" Param.toJson a.recordedSelf

/-- A feature. -/
def Feature.toJson : Feature → Json
  | .method m => .object (("kind", .string "Method") :: m.fields)
  | .attribute a => .object (("kind", .string "Attribute") :: a.fields)

/-- A class. -/
def Class.toJson (c : Class) : Json :=
  .object ([("line", c.line.toJson), ("name", .string c.name),
    ("parent", orNull Json.string c.parent),
    ("features", .array (c.features.map Feature.toJson))] ++
    present "parent_data" Json.string c.recordedParent)

/-- A program. The list of built-in classes is left out while it is empty. -/
def Program.toJson (p : Program) : Json :=
  .object ([("line", p.line.toJson), ("classes", .array (p.classes.map Class.toJson)),
    ("exprs", p.exprs.toJson)] ++
    if p.builtins.isEmpty then [] else [("builtins", .array (p.builtins.map Class.toJson))])

end Lcpl
