import Lcpl.Tree.Program

/-!
# The class registry

The registry knows every class by a number, the built-in classes first and then the classes of the
program in declaration order. Parents and types refer to classes by number, so that the registry can
be built up class by class. Beside the classes it keeps an index of their names.

Operations on a registry or on a class change it in place. What an operation leaves behind where it
refuses is up to its steps.

## Main definitions

* `ClassId`, `Ty` — a registered class, and a type during analysis
* `MethodDef`, `AttributeDef`, `ClassDef` — what is known of a class and its features
* `Registry` — the classes by number, with the index of their names
* `Registry.addClass`, `ClassDef.addMethod`, `ClassDef.addAttribute` — registration, which refuses a
  name that is taken
* `Registry.onClass` — an operation on a registered class
* `Registry.find?`, `Registry.resolve?` — the class or type of a name

## Main results

* `Registry.run_addClass_of_isSome`, `ClassDef.run_addMethod_of_isSome`,
  `ClassDef.run_addAttribute_of_isSome` — a refused registration leaves everything as it was
* `Registry.class?_set`, `Registry.class?_of_add?` — what each operation does to the view by number
-/

namespace Lcpl

/-- The number of a registered class. -/
structure ClassId where
  index : Nat
deriving DecidableEq, Repr

namespace ClassId

/-- The class at the root of the hierarchy is registered first. -/
def object : ClassId := ⟨0⟩

/-- The class of text is registered second. -/
def string : ClassId := ⟨1⟩

/-- The class of input and output is registered third. -/
def inOut : ClassId := ⟨2⟩

/-- The written form of a class number. -/
def text (id : ClassId) : String := "class#" ++ toString id.index

end ClassId

/-- The type of an expression during analysis. -/
inductive Ty where
  /-- Numbers. -/
  | int
  /-- No value, as for a loop or a call of a method without value. -/
  | noValue
  /-- The type of the `void` literal. -/
  | null
  /-- The objects of a class. -/
  | object (id : ClassId)
deriving DecidableEq, Repr

/-- The class of a type, if it has one. -/
def Ty.class? : Ty → Option ClassId
  | object id => some id
  | _ => none

/-- The type of texts. -/
def Ty.string : Ty := .object .string

/-- A parameter of a registered method. -/
structure ParamDef where
  name : String
  typeName : String
  ty : Ty
deriving DecidableEq, Repr

/-- A registered method. It has no return type while the declared one does not resolve. -/
structure MethodDef where
  name : String
  line : Line
  owner : ClassId
  params : List ParamDef
  returnTypeName : String
  returnTy : Option Ty
deriving DecidableEq, Repr

/-- A registered attribute. -/
structure AttributeDef where
  name : String
  owner : ClassId
  typeName : String
  ty : Ty
deriving DecidableEq, Repr

/-- Where a class comes from: it is built in, or declared at a position of the program. -/
inductive Origin where
  | builtin
  | declared (index : Nat)
deriving DecidableEq, Repr

/-- A registered class, with its own methods and attributes in the order of their registration. -/
structure ClassDef where
  name : String
  line : Line
  origin : Origin
  declaredParent : Option String
  parent : Option ClassId
  methods : List MethodDef
  attributes : List AttributeDef
deriving DecidableEq, Repr

namespace ClassDef

/-- A class before its parent is resolved and its features are registered. -/
def declared (name : String) (line : Line) (origin : Origin) (declaredParent : Option String) :
    ClassDef :=
  { name, line, origin, declaredParent, parent := none, methods := [], attributes := [] }

/-- The method of a name, declared in this very class. -/
def method? (c : ClassDef) (name : String) : Option MethodDef := c.methods.find? (·.name = name)

/-- The attribute of a name, declared in this very class. -/
def attribute? (c : ClassDef) (name : String) : Option AttributeDef :=
  c.attributes.find? (·.name = name)

/-- Registers a method, unless its name is taken, and says whether it did. -/
def addMethod (method : MethodDef) : StateM ClassDef Bool := do
  if ((← get).method? method.name).isSome then
    return false
  modify fun c => { c with methods := c.methods ++ [method] }
  return true

/-- Registers an attribute, unless its name is taken, and says whether it did. -/
def addAttribute (attr : AttributeDef) : StateM ClassDef Bool := do
  if ((← get).attribute? attr.name).isSome then
    return false
  modify fun c => { c with attributes := c.attributes ++ [attr] }
  return true

/-- Links the class to a parent, or to none. -/
def setParent (parent : Option ClassId) : StateM ClassDef Unit :=
  modify fun c => { c with parent }

/-- The class with one more method, if that is registered. -/
def addMethod? (c : ClassDef) (method : MethodDef) : Option ClassDef :=
  match (addMethod method).run c with
  | (true, after) => some after
  | (false, _) => none

/-- The class with one more attribute, if that is registered. -/
def addAttribute? (c : ClassDef) (attr : AttributeDef) : Option ClassDef :=
  match (addAttribute attr).run c with
  | (true, after) => some after
  | (false, _) => none

/-- Whether the class is built in. -/
def isBuiltin (c : ClassDef) : Bool := c.origin = .builtin

variable {c : ClassDef} {method : MethodDef} {attr : AttributeDef}

theorem run_addMethod_of_none (h : c.method? method.name = none) :
    (addMethod method).run c = (true, { c with methods := c.methods ++ [method] }) := by
  simp [addMethod, h]
  rfl

/-- A method that is refused leaves the class as it was. -/
theorem run_addMethod_of_isSome (h : (c.method? method.name).isSome) :
    (addMethod method).run c = (false, c) := by
  simp [addMethod, h]
  rfl

theorem run_addAttribute_of_none (h : c.attribute? attr.name = none) :
    (addAttribute attr).run c = (true, { c with attributes := c.attributes ++ [attr] }) := by
  simp [addAttribute, h]
  rfl

/-- An attribute that is refused leaves the class as it was. -/
theorem run_addAttribute_of_isSome (h : (c.attribute? attr.name).isSome) :
    (addAttribute attr).run c = (false, c) := by
  simp [addAttribute, h]
  rfl

end ClassDef

/-- The registered classes by number, and the index from their names to their numbers. -/
structure Registry where
  classes : Array ClassDef
  byName : List (String × ClassId)
deriving DecidableEq, Repr

namespace Registry

variable {α : Type}

/-- The registry without classes. -/
def empty : Registry := ⟨#[], []⟩

/-- The number of classes. -/
def size (registry : Registry) : Nat := registry.classes.size

/-- The class of a number. -/
def class? (registry : Registry) (id : ClassId) : Option ClassDef := registry.classes[id.index]?

/-- Every class number, in order. -/
def ids (registry : Registry) : List ClassId := (List.range registry.size).map ClassId.mk

/-- The number of the class of a name, as the index has it. -/
def find? (registry : Registry) (name : String) : Option ClassId := registry.byName.lookup name

/-- The number that the next registered class receives. -/
def next (registry : Registry) : ClassId := ⟨registry.size⟩

/-- Registers a class, unless its name is taken: it receives the next number, is entered into the
index, and then follows the other classes. -/
def addClass (c : ClassDef) : StateM Registry (Option ClassId) := do
  let id := (← get).next
  if ((← get).find? c.name).isSome then
    return none
  modify fun registry => { registry with byName := registry.byName ++ [(c.name, id)] }
  modify fun registry => { registry with classes := registry.classes.push c }
  return some id

/-- The registry with one more class, if that is registered. -/
def add? (registry : Registry) (c : ClassDef) : Option Registry :=
  match (addClass c).run registry with
  | (some _, after) => some after
  | (none, _) => none

/-- Replaces the class of a number. -/
def set (registry : Registry) (id : ClassId) (c : ClassDef) : Registry :=
  { registry with classes := registry.classes.setIfInBounds id.index c }

/-- Runs an operation on the class of a number, and puts back what it leaves. -/
def onClass (id : ClassId) (operation : StateM ClassDef α) : StateM Registry (Option α) := do
  match (← get).class? id with
  | none => return none
  | some c =>
      let (value, after) := operation.run c
      modify (·.set id after)
      return some value

/-- The type of a name as it stands in a declaration: `Int` or a registered class. -/
def resolve? (registry : Registry) (name : String) : Option Ty :=
  if name = Vocabulary.int then some .int else (registry.find? name).map .object

/-- The classes of the program in order of their numbers, with their position in the program. -/
def declared (registry : Registry) : List (ClassId × Nat) :=
  registry.ids.filterMap fun id =>
    match (registry.class? id).map ClassDef.origin with
    | some (.declared index) => some (id, index)
    | _ => none

/-- The form in which a type is recorded in the program; none for a class that is not
registered. -/
def label? (registry : Registry) : Ty → Option TypeName
  | .int => some .int
  | .noValue => some .noValue
  | .null => some .void
  | .object id => (registry.class? id).map fun c => .object c.name

/-- The name of a class. -/
def name? (registry : Registry) (id : ClassId) : Option String :=
  (registry.class? id).map ClassDef.name

/-- The parent of a class, once it is resolved. -/
def parent? (registry : Registry) (id : ClassId) : Option ClassId :=
  (registry.class? id).bind (·.parent)

/-! ### The view by number -/

theorem class?_eq_none_iff {registry : Registry} {id : ClassId} :
    registry.class? id = none ↔ registry.size ≤ id.index := by
  simp [class?, size]

@[simp] theorem mem_ids {registry : Registry} {id : ClassId} :
    id ∈ registry.ids ↔ id.index < registry.size := by
  obtain ⟨index⟩ := id
  simp [ids]

@[simp] theorem size_set (registry : Registry) (id : ClassId) (c : ClassDef) :
    (registry.set id c).size = registry.size := by
  simp [size, set]

theorem class?_set (registry : Registry) (id other : ClassId) (c : ClassDef) :
    (registry.set id c).class? other =
      if other = id ∧ id.index < registry.size then some c else registry.class? other := by
  obtain ⟨i⟩ := id
  obtain ⟨j⟩ := other
  simp only [class?, set, size, Array.getElem?_setIfInBounds, ClassId.mk.injEq]
  by_cases h : i = j
  · subst h
    by_cases hi : i < registry.classes.size <;> simp [hi]
  · have : ¬ j = i := fun e => h e.symm
    simp [h, this]

/-! ### Registration -/

variable {registry after : Registry} {c : ClassDef}

/-- A class is entered into the index, and it follows the other classes. -/
theorem run_addClass_of_none (h : registry.find? c.name = none) :
    (addClass c).run registry = (some registry.next,
      ⟨registry.classes.push c, registry.byName ++ [(c.name, registry.next)]⟩) := by
  simp [addClass, h]
  rfl

/-- A class that is refused leaves the registry as it was. -/
theorem run_addClass_of_isSome (h : (registry.find? c.name).isSome) :
    (addClass c).run registry = (none, registry) := by
  simp [addClass, h]
  rfl

theorem add?_eq_some_iff : registry.add? c = some after ↔ registry.find? c.name = none ∧
    after = ⟨registry.classes.push c, registry.byName ++ [(c.name, registry.next)]⟩ := by
  cases h : registry.find? c.name with
  | none => simp [add?, run_addClass_of_none h, eq_comm]
  | some taken => simp [add?, run_addClass_of_isSome (Option.isSome_of_eq_some h)]

theorem add?_eq_none_iff : registry.add? c = none ↔ (registry.find? c.name).isSome := by
  cases h : registry.find? c.name with
  | none => simp [add?, run_addClass_of_none h]
  | some taken => simp [add?, run_addClass_of_isSome (Option.isSome_of_eq_some h)]

/-- A registered class is found under the number that was next, and the others stay where they
were. -/
theorem class?_of_add? (h : registry.add? c = some after) (id : ClassId) :
    after.class? id = if id = registry.next then some c else registry.class? id := by
  obtain ⟨index⟩ := id
  obtain ⟨-, rfl⟩ := add?_eq_some_iff.mp h
  simp [class?, next, size, Array.getElem?_push]

/-! ### Operations on a class -/

/-- What is there may be put back. -/
theorem set_of_class? {id : ClassId} (h : registry.class? id = some c) :
    registry.set id c = registry := by
  obtain ⟨hlt, -⟩ := Array.getElem?_eq_some_iff.mp h
  have hclasses : registry.classes.setIfInBounds id.index c = registry.classes := by
    refine Array.ext_getElem? fun i => ?_
    rw [Array.getElem?_setIfInBounds]
    split
    · next hi => exact hi ▸ h.symm
    · rfl
  rw [set, hclasses]

theorem run_onClass_of_none {id : ClassId} (h : registry.class? id = none)
    (operation : StateM ClassDef α) : (onClass id operation).run registry = (none, registry) := by
  simp [onClass, h]
  rfl

theorem run_onClass_of_some {id : ClassId} (h : registry.class? id = some c)
    (operation : StateM ClassDef α) : (onClass id operation).run registry =
      (some (operation.run c).1, registry.set id (operation.run c).2) := by
  simp [onClass, h]
  rfl

end Registry

end Lcpl
