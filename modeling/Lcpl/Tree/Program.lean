import Lcpl.Tree.Arena

/-!
# Programs

A program is a list of classes in declaration order, together with the arena that owns their
expressions.

## Main definitions

* `Param`, `Method`, `Attribute`, `Feature`, `Class`, `Program` — the tree above expressions
* `Class.methods`, `Class.attributes` — the features of one kind, in declaration order
* `Feature.root` — the expression that a feature holds
-/

namespace Lcpl

/-- A formal parameter. -/
structure Param where
  line : Line
  name : String
  typeName : String
  recordedType : Option TypeName
deriving DecidableEq, Repr

/-- A method. Native methods have no body. -/
structure Method where
  line : Line
  name : String
  params : List Param
  returnType : String
  body : Option ExprId
  recordedReturn : Option TypeName
  recordedSelf : Option Param
  recordedOwner : Option String
deriving DecidableEq, Repr

/-- An attribute with its initial value, if it has one. `recordedSelf` is the receiver as the
initial value sees it. -/
structure Attribute where
  line : Line
  name : String
  typeName : String
  init : Option ExprId
  recordedType : Option TypeName
  recordedSelf : Option Param
deriving DecidableEq, Repr

/-- What a class declares. -/
inductive Feature where
  | method (declaration : Method)
  | attribute (declaration : Attribute)
deriving DecidableEq, Repr

/-- A class. Without a declared parent it inherits from `Object`. -/
structure Class where
  line : Line
  name : String
  parent : Option String
  features : List Feature
  recordedParent : Option String
deriving DecidableEq, Repr

/-- A whole program. `builtins` shows the native classes as analysis sees them; it is written anew
by every run. -/
structure Program where
  line : Line
  classes : List Class
  exprs : Arena
  builtins : List Class
deriving DecidableEq, Repr

namespace Param

/-- A parameter as declared, without annotation. -/
def declared (line : Line) (name typeName : String) : Param :=
  { line, name, typeName, recordedType := none }

/-- The receiver of a feature declared in a class. -/
def receiver (line : Line) (className : String) : Param :=
  { line, name := Vocabulary.receiver, typeName := className
    recordedType := some (.object className) }

end Param

namespace Method

/-- A method as declared, without annotations. -/
def declared (line : Line) (name : String) (params : List Param) (returnType : String)
    (body : Option ExprId) : Method :=
  { line, name, params, returnType, body
    recordedReturn := none, recordedSelf := none, recordedOwner := none }

end Method

namespace Attribute

/-- An attribute as declared, without annotations. -/
def declared (line : Line) (name typeName : String) (init : Option ExprId) : Attribute :=
  { line, name, typeName, init, recordedType := none, recordedSelf := none }

end Attribute

namespace Feature

/-- The name of a feature. -/
def name : Feature → String
  | .method m => m.name
  | .attribute a => a.name

/-- The expression that a feature holds: a method's body or an attribute's initial value. -/
def root : Feature → Option ExprId
  | .method m => m.body
  | .attribute a => a.init

/-- The method, if the feature is one. -/
def method? : Feature → Option Method
  | .method m => some m
  | .attribute _ => none

/-- The attribute, if the feature is one. -/
def attribute? : Feature → Option Attribute
  | .method _ => none
  | .attribute a => some a

end Feature

namespace Class

/-- A class without features. -/
def declared (line : Line) (name : String) (parent : Option String) : Class :=
  { line, name, parent, features := [], recordedParent := none }

/-- The methods, in declaration order. -/
def methods (c : Class) : List Method := c.features.filterMap Feature.method?

/-- The attributes, in declaration order. -/
def attributes (c : Class) : List Attribute := c.features.filterMap Feature.attribute?

/-- The first method of a name. -/
def method? (c : Class) (name : String) : Option Method := c.methods.find? (·.name = name)

/-- The first attribute of a name. -/
def attribute? (c : Class) (name : String) : Option Attribute :=
  c.attributes.find? (·.name = name)

end Class

namespace Program

/-- The program without classes and expressions. -/
def empty (line : Line) : Program :=
  { line, classes := [], exprs := .empty, builtins := [] }

/-- The first class of a name. -/
def class? (p : Program) (name : String) : Option Class := p.classes.find? (·.name = name)

/-- Appends a class. -/
def addClass (p : Program) (c : Class) : Program := { p with classes := p.classes ++ [c] }

/-- Appends a feature to the last class; a program without classes has no place for it. -/
def addFeature? (p : Program) (feature : Feature) : Option Program :=
  match p.classes.getLast? with
  | none => none
  | some c =>
      let c := { c with features := c.features ++ [feature] }
      some { p with classes := p.classes.dropLast ++ [c] }

/-- Appends an expression, whose handle is `p.exprs.next`. -/
def addExpr (p : Program) (line : Line) (expr : Expr) : Program :=
  { p with exprs := p.exprs.alloc { line, expr, recordedType := none } }

end Program

end Lcpl
