import Lcpl.Line
import Lcpl.TypeName

/-!
# Expressions

The forms leave open what a part is. An expression of a program refers to its parts by id: the nodes
themselves live in an arena (`Lcpl.Tree.Arena`), so that a part can be replaced by pointing its slot
at another node.

Fields whose name starts with `recorded` are annotations: analysis fills them in, and never reads
what they held before.

## Main definitions

* `ExprId` — the handle of an expression node
* `VarRef`, `MethodRef` — what a name or a call was resolved to
* `Form` — the expression forms
* `Expr` — the forms over handles
* `Form.children` — the parts of an expression, in evaluation order
-/

namespace Lcpl

/-- The handle of an expression node: its position in the arena. -/
structure ExprId where
  index : Nat
deriving DecidableEq, Repr

/-- The written form of a handle. -/
def ExprId.text (id : ExprId) : String :=
  "#" ++ toString id.index

/-- What a variable name was resolved to. -/
inductive VarRef where
  /-- An attribute, by the class that declares it. -/
  | attribute (className name : String)
  /-- A formal parameter. -/
  | param (name : String)
  /-- A local definition, identified by its line. -/
  | letBound (name : String) (line : Line)
  /-- The receiver. -/
  | receiver
deriving DecidableEq, Repr

/-- The method that a call was resolved to, by the class that declares it. -/
structure MethodRef where
  className : String
  name : String
deriving DecidableEq, Repr

/-- Operators on two numbers other than addition. -/
inductive BinaryOperator where
  | multiplication
  | division
  | subtraction
  | lessThan
  | lessThanEqual
deriving DecidableEq, Repr

/-- The operator as a programmer writes it. -/
def BinaryOperator.sign : BinaryOperator → String
  | multiplication => "*"
  | division => "/"
  | subtraction => "-"
  | lessThan => "<"
  | lessThanEqual => "<="

/-- Operators on one number. -/
inductive UnaryOperator where
  | minus
  | not
deriving DecidableEq, Repr

/-- The operator as a programmer writes it. -/
def UnaryOperator.sign : UnaryOperator → String
  | minus => "-"
  | not => "!"

/-- The expression forms, over parts of a kind `κ`. -/
inductive Form (κ : Type) where
  /-- Expressions run one after the other. -/
  | block (items : List κ)
  /-- A local variable, visible in `scope` and not in its own initial value. -/
  | localDefinition (name typeName : String) (init scope : Option κ)
      (recordedType : Option TypeName)
  /-- A call on a receiver, or on `self` if there is none. -/
  | dispatch (receiver : Option κ) (name : String) (args : List κ)
      (recordedMethod : Option MethodRef)
  /-- A call whose method is looked up in a named class instead of the receiver's own. -/
  | staticDispatch (receiver : κ) (className name : String) (args : List κ)
      (recordedReceiver : Option TypeName) (recordedMethod : Option MethodRef)
  /-- A choice between two branches, of which the second may be missing. -/
  | conditional (condition thenBranch : κ) (elseBranch : Option κ)
  /-- A loop. -/
  | whileLoop (condition body : κ)
  /-- A conversion to a named type. -/
  | cast (typeName : String) (operand : κ)
  /-- A new object of a named class. -/
  | newObject (typeName : String)
  /-- The part of a text between two positions. -/
  | substring (subject first last : κ)
  /-- An assignment. The target may be qualified by a class, as in `Class.attribute`. -/
  | assignment (target : String) (value : κ) (recordedVariable : Option VarRef)
  /-- Addition of numbers, or concatenation of texts. -/
  | addition (lhs rhs : κ)
  /-- Any other operator on two numbers. -/
  | binary (operator : BinaryOperator) (lhs rhs : κ)
  /-- An operator on one number. -/
  | unary (operator : UnaryOperator) (operand : κ)
  /-- A test for equality. -/
  | equality (lhs rhs : κ)
  /-- A variable. -/
  | symbol (name : String) (recordedVariable : Option VarRef)
  /-- A number. -/
  | intConstant (value : Int64)
  /-- A text. -/
  | stringConstant (value : String)
  /-- The reference to no object. -/
  | voidConstant
deriving DecidableEq, Repr

/-- An expression of a program, which refers to its parts by handle. -/
abbrev Expr := Form ExprId

namespace Form

variable {κ : Type}

/-- The name of an expression's form. -/
def kind : Form κ → String
  | block .. => "Block"
  | localDefinition .. => "LocalDefinition"
  | dispatch .. => "BaseDispatch"
  | staticDispatch .. => "StaticDispatch"
  | conditional .. => "IfStatement"
  | whileLoop .. => "WhileStatement"
  | cast .. => "Cast"
  | newObject .. => "NewObject"
  | substring .. => "SubString"
  | assignment .. => "Assignment"
  | addition .. => "Addition"
  | binary .. => "BinaryOp"
  | unary .. => "UnaryOp"
  | equality .. => "EqualComparison"
  | symbol .. => "Symbol"
  | intConstant .. => "IntConstant"
  | stringConstant .. => "StringConstant"
  | voidConstant => "VoidConstant"

/-- The parts of an expression, in evaluation order. -/
def children : Form κ → List κ
  | block items => items
  | localDefinition _ _ init scope _ => init.toList ++ scope.toList
  | dispatch receiver _ args _ => receiver.toList ++ args
  | staticDispatch receiver _ _ args _ _ => receiver :: args
  | conditional condition thenBranch elseBranch =>
      condition :: thenBranch :: elseBranch.toList
  | whileLoop condition body => [condition, body]
  | substring subject first last => [subject, first, last]
  | cast _ operand => [operand]
  | assignment _ value _ => [value]
  | unary _ operand => [operand]
  | addition lhs rhs => [lhs, rhs]
  | binary _ lhs rhs => [lhs, rhs]
  | equality lhs rhs => [lhs, rhs]
  | newObject _ => []
  | symbol _ _ => []
  | intConstant _ => []
  | stringConstant _ => []
  | voidConstant => []

end Form

end Lcpl
