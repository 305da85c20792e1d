import Lcpl.Json.Record
import Lcpl.Tree.Program

/-!
# Reading programs from JSON

Each part of a program is a record: an object, in which the order of the fields has no meaning, or
an array of the fields in their order. Where several forms are possible, the kind says which one it
is; in an object it may stand anywhere. Such a value is taken in as a whole before its form is
known, so all of it has to be plain, and it must not be nested too deeply. In other objects, members
that nobody asks for are skipped, whatever they hold.

## Main definitions

* `Expr.form?`, `Method.record`, `Class.record` and others — the fields of a part
* `Expr.ofJson?`, `Node.ofJson?`, `Feature.ofJson?`, `Class.ofJson?`, `Program.ofJson?` and
  others — the part of a program that a value stands for
-/

namespace Lcpl

open Json (string? natural? listOf? Record tagged?)
open Json.Record (required nullable optional withDefault)

/-- A line number: 32 bits, without sign. -/
def Line.ofJson? (value : Json) : Option Line :=
  (natural? UInt32.size value).map UInt32.ofNat

/-- A handle: 64 bits, without sign. -/
def ExprId.ofJson? (value : Json) : Option ExprId :=
  (natural? UInt64.size value).map ExprId.mk

/-- A number of the language: 64 bits, with sign. -/
def Int64.ofJson? : Json → Option Int64
  | .integer value =>
      if Int64.minValue.toInt ≤ value ∧ value ≤ Int64.maxValue.toInt then some (Int64.ofInt value)
      else none
  | _ => none

/-- A recorded type, by its name. -/
def TypeName.ofJson? (value : Json) : Option TypeName := (string? value).map TypeName.ofText

/-- How many levels of arrays and objects a program may have, up to the parts with several forms and
inside them. -/
def nestingLimit : Nat := 127

/-- The kinds of variables, in the order of their numbers. -/
def VarRef.kinds : List String := ["Attribute", "Param", "Local", "SelfParam"]

/-- The kind of a variable, by its name or by its number. -/
def VarRef.kind? : Json → Option String
  | .string name => some name
  | .integer (.ofNat number) => VarRef.kinds[number]?
  | _ => none

/-- The fields of a resolved variable, by its kind. -/
def VarRef.form? : String → Option (Record VarRef)
  | "Attribute" => some (.attribute <$> required string? "class" <*> required string? "name")
  | "Param" => some (.param <$> required string? "name")
  | "Local" => some (.letBound <$> required string? "name" <*> required Line.ofJson? "line")
  | "SelfParam" => some (pure .receiver)
  | _ => none

/-- A resolved variable. -/
def VarRef.ofJson? : Json → Option VarRef := tagged? VarRef.kind? VarRef.form?

/-- The fields of a resolved method. -/
def MethodRef.record : Record MethodRef :=
  mk <$> required string? "class" <*> required string? "name"

/-- A resolved method. -/
def MethodRef.ofJson? : Json → Option MethodRef := MethodRef.record.ofJson?

/-- The name of an operator: a text, or the only key of an object that has nothing under it. -/
def operatorName? : Json → Option String
  | .string name => some name
  | .object [(name, .null)] => some name
  | .object [(name, .object [])] => some name
  | _ => none

/-- An operator on two numbers. -/
def BinaryOperator.ofJson? (value : Json) : Option BinaryOperator := do
  match ← operatorName? value with
  | "Multiplication" => some .multiplication
  | "Division" => some .division
  | "Subtraction" => some .subtraction
  | "LessThan" => some .lessThan
  | "LessThanEqual" => some .lessThanEqual
  | _ => none

/-- An operator on one number. -/
def UnaryOperator.ofJson? (value : Json) : Option UnaryOperator := do
  match ← operatorName? value with
  | "Minus" => some .minus
  | "Not" => some .not
  | _ => none

/-- A list of handles. -/
def ExprId.listOfJson? : Json → Option (List ExprId) := listOf? ExprId.ofJson?

/-- The fields of an expression, by its kind. -/
def Expr.form? : String → Option (Record Expr)
  | "Block" => some (.block <$> required ExprId.listOfJson? "exprs")
  | "LocalDefinition" =>
      some (.localDefinition <$> required string? "name" <*> required string? "type_name"
        <*> nullable ExprId.ofJson? "init" <*> nullable ExprId.ofJson? "scope"
        <*> optional TypeName.ofJson? "variable_type")
  | "BaseDispatch" =>
      some (.dispatch <$> nullable ExprId.ofJson? "object" <*> required string? "name"
        <*> required ExprId.listOfJson? "args" <*> optional MethodRef.ofJson? "method")
  | "StaticDispatch" =>
      some (.staticDispatch <$> required ExprId.ofJson? "object"
        <*> required string? "static_type" <*> required string? "name"
        <*> required ExprId.listOfJson? "args" <*> optional TypeName.ofJson? "self_type"
        <*> optional MethodRef.ofJson? "method")
  | "IfStatement" =>
      some (.conditional <$> required ExprId.ofJson? "condition"
        <*> required ExprId.ofJson? "then_expr" <*> nullable ExprId.ofJson? "else_expr")
  | "WhileStatement" =>
      some (.whileLoop <$> required ExprId.ofJson? "condition" <*> required ExprId.ofJson? "body")
  | "Cast" => some (.cast <$> required string? "type_name" <*> required ExprId.ofJson? "expr")
  | "NewObject" => some (.newObject <$> required string? "type_name")
  | "SubString" =>
      some (.substring <$> required ExprId.ofJson? "string" <*> required ExprId.ofJson? "start"
        <*> required ExprId.ofJson? "end")
  | "Assignment" =>
      some (.assignment <$> required string? "symbol" <*> required ExprId.ofJson? "expr"
        <*> optional VarRef.ofJson? "variable")
  | "Addition" =>
      some (.addition <$> required ExprId.ofJson? "lhs" <*> required ExprId.ofJson? "rhs")
  | "BinaryOp" =>
      some (.binary <$> required BinaryOperator.ofJson? "op" <*> required ExprId.ofJson? "lhs"
        <*> required ExprId.ofJson? "rhs")
  | "UnaryOp" =>
      some (.unary <$> required UnaryOperator.ofJson? "op" <*> required ExprId.ofJson? "expr")
  | "EqualComparison" =>
      some (.equality <$> required ExprId.ofJson? "lhs" <*> required ExprId.ofJson? "rhs")
  | "Symbol" => some (.symbol <$> required string? "name" <*> optional VarRef.ofJson? "variable")
  | "IntConstant" => some (.intConstant <$> required Int64.ofJson? "value")
  | "StringConstant" => some (.stringConstant <$> required string? "value")
  | "VoidConstant" => some (pure .voidConstant)
  | _ => none

/-- An expression. Around it are the program, its list of nodes, and the node. -/
def Expr.ofJson? (value : Json) : Option Expr := do
  guard (value.isPlain (nestingLimit - 3))
  tagged? string? Expr.form? value

/-- The fields of an expression node. -/
def Node.record : Record Node :=
  mk <$> required Line.ofJson? "line" <*> required Expr.ofJson? "expr"
    <*> optional TypeName.ofJson? "ty"

/-- An expression node. -/
def Node.ofJson? : Json → Option Node := Node.record.ofJson?

/-- An arena, as the list of its nodes. -/
def Arena.ofJson? (value : Json) : Option Arena :=
  (listOf? Node.ofJson? value).map fun nodes => ⟨nodes.toArray⟩

/-- The fields of a formal parameter. -/
def Param.record : Record Param :=
  mk <$> required Line.ofJson? "line" <*> required string? "name"
    <*> required string? "type_name" <*> optional TypeName.ofJson? "variable_type"

/-- A formal parameter. -/
def Param.ofJson? : Json → Option Param := Param.record.ofJson?

/-- The fields of a method. -/
def Method.record : Record Method :=
  mk <$> required Line.ofJson? "line" <*> required string? "name"
    <*> withDefault [] (listOf? Param.ofJson?) "params" <*> required string? "return_type"
    <*> optional ExprId.ofJson? "body" <*> optional TypeName.ofJson? "return_type_data"
    <*> optional Param.ofJson? "self_param" <*> optional string? "owner"

/-- A method, by its members. -/
def Method.ofFields? : Json.Members → Option Method := Method.record.read

/-- The fields of an attribute. -/
def Attribute.record : Record Attribute :=
  mk <$> required Line.ofJson? "line" <*> required string? "name"
    <*> required string? "type_name" <*> optional ExprId.ofJson? "init"
    <*> optional TypeName.ofJson? "type_data" <*> optional Param.ofJson? "init_self"

/-- An attribute, by its members. -/
def Attribute.ofFields? : Json.Members → Option Attribute := Attribute.record.read

/-- The fields of a feature, by its kind. -/
def Feature.form? : String → Option (Record Feature)
  | "Method" => some (.method <$> Method.record)
  | "Attribute" => some (.attribute <$> Attribute.record)
  | _ => none

/-- A feature. Around it are the program, its list of classes, the class, and its list of
features. -/
def Feature.ofJson? (value : Json) : Option Feature := do
  guard (value.isPlain (nestingLimit - 4))
  tagged? string? Feature.form? value

/-- The fields of a class. -/
def Class.record : Record Class :=
  mk <$> required Line.ofJson? "line" <*> required string? "name"
    <*> optional string? "parent" <*> withDefault [] (listOf? Feature.ofJson?) "features"
    <*> optional string? "parent_data"

/-- A class. -/
def Class.ofJson? : Json → Option Class := Class.record.ofJson?

/-- The fields of a program. -/
def Program.record : Record Program :=
  mk <$> withDefault 0 Line.ofJson? "line" <*> required (listOf? Class.ofJson?) "classes"
    <*> withDefault .empty Arena.ofJson? "exprs"
    <*> withDefault [] (listOf? Class.ofJson?) "builtins"

/-- A program. -/
def Program.ofJson? : Json → Option Program := Program.record.ofJson?

end Lcpl
