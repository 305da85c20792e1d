import Mathlib.Data.List.Forall2
import Lcpl.Proofs.Registry.Coherent
import Lcpl.Proofs.Term.Elaborate

/-!
# Typing

The judgment that a term is elaborated: every node records its type, every name is resolved, and the
types of the parts of each node are as they should be, with no conversion left to do.

The judgment says of names only what a resolution can look like. What is known of the names that
stood in a term before it was elaborated is a parameter (`Naming`), which may depend on the mark of
a node.

## Main definitions

* `Ty.Fits`, `Ty.Comparable` — types that go together without conversion
* `Context.denoted?` — the variable of a name, the receiver included
* `Context.Calls` — what a call is resolved to
* `Form.Typed` — the typing rule of each form, over parts with their types
* `Term.WellTyped` — a term that is elaborated, with its type
-/

namespace Lcpl

/-- A value of the type stands where `expected` is expected, without conversion. -/
def Ty.Fits (ty expected : Ty) : Prop := ty = expected ∨ ty = .null

/-- Values of the two types are compared without conversion: both of one type, or neither a number,
and one an object of the root class unless there are no objects at all. -/
def Ty.Comparable (a b : Ty) : Prop :=
  a = b ∨ a ≠ .int ∧ b ≠ .int ∧
    (a = .object .object ∨ b = .object .object ∨ a.class? = none ∧ b.class? = none)

namespace Context

/-- The variable of a name: `self` is the receiver, unless something else has taken the name. -/
def denoted? (Γ : Context) (locals : Scopes String Variable) (name : String) : Option Variable :=
  match Γ.lookup? locals name with
  | some found => some found
  | none =>
      if name = Vocabulary.receiver then some ⟨.object Γ.currentClass, .receiver⟩ else none

/-- A call of `name` on a value of the type runs the method that the reference stands for. -/
structure Calls (Γ : Context) (receiver : Ty) (name : String) (method : MethodDef)
    (ref : MethodRef) : Prop where
  lookup : receiver.class?.bind (Γ.registry.lookupMethod? · name) = some method
  className : Γ.registry.name? method.owner = some ref.className
  name_eq : method.name = ref.name
  method? : Γ.registry.method? ref = some method

end Context

/-- What is known of the names in a node before its elaboration: the target, if it is an assignment,
the name it defines, if it is a local definition, the name of the variable, if it is a symbol, and
whether elaboration made it. -/
structure Naming where
  target : String → Prop
  bound : String → Prop
  used : String → Prop
  made : Prop

variable {ι κ : Type}

/-- Arguments that fit the parameters of a method, one by one. -/
def MethodDef.Accepts (method : MethodDef) (args : List (κ × Ty)) : Prop :=
  List.Forall₂ (fun arg param => arg.2.Fits param.ty) args method.params

/-- The typing rule of each form. Its parts come with their types. -/
def Form.Typed (Γ : Context) (N : Naming) (locals : Scopes String Variable) :
    Form (κ × Ty) → Ty → Prop
  | block items, ty => ty = (items.getLast?.map Prod.snd).getD .noValue
  | localDefinition name typeName init scope recordedType, ty =>
      N.bound name ∧ ∃ declared, Γ.registry.resolve? typeName = some declared ∧
        recordedType = Γ.registry.label? declared ∧ (∀ value ∈ init, value.2.Fits declared) ∧
        ty = (scope.map Prod.snd).getD .noValue
  | dispatch receiver name args recordedMethod, ty =>
      ∃ object method ref, receiver = some object ∧ recordedMethod = some ref ∧
        Γ.Calls object.2 name method ref ∧ method.Accepts args ∧ ty = method.returnTy.getD .noValue
  | staticDispatch object className name args recordedReceiver recordedMethod, ty =>
      ∃ method ref, recordedMethod = some ref ∧ Γ.registry.resolve? className = some ty ∧
        recordedReceiver = Γ.registry.label? ty ∧
        (ty = object.2 ∨ Γ.registry.isStrictlyAbove ty object.2 = true) ∧
        Γ.Calls ty name method ref ∧ method.Accepts args
  | conditional condition thenBranch elseBranch, ty =>
      condition.2 = .int ∧
        ty = (elseBranch.map fun branch => Γ.registry.join thenBranch.2 branch.2).getD .noValue
  | whileLoop condition _, ty => condition.2 = .int ∧ ty = .noValue
  | cast typeName operand, ty =>
      Γ.registry.resolve? typeName = some ty ∨
        Γ.registry.resolve? typeName = none ∧ operand.2 = .noValue ∧ ty = .noValue
  | newObject typeName, ty => Γ.registry.resolve? typeName = some ty ∧ ty ≠ .int
  | substring _ _ _, ty => ty = .string
  | assignment target value recordedVariable, ty =>
      ∃ written found, N.target written ∧
        Body.assigned Γ locals written = (target, some found) ∧
        recordedVariable = some found.ref ∧ value.2.Fits found.ty ∧ ty = found.ty
  | addition lhs rhs, ty => lhs.2 = rhs.2 ∧ ty = lhs.2
  | binary _ lhs rhs, ty => lhs.2 = .int ∧ rhs.2 = .int ∧ ty = .int
  | unary _ _, ty => ty = .int
  | equality lhs rhs, ty => lhs.2.Comparable rhs.2 ∧ ty = .int
  | symbol name recordedVariable, ty =>
      (N.used name ∧ ∃ found, Γ.denoted? locals name = some found ∧
        recordedVariable = some found.ref ∧ ty = found.ty) ∨
      N.made ∧ name = Vocabulary.receiver ∧ recordedVariable = some .receiver ∧
        ty = .object Γ.currentClass
  | intConstant _, ty => ty = .int
  | stringConstant _, ty => ty = .string
  | voidConstant, ty => ty = .null

theorem Form.typed_map_unit {Γ : Context} {N : Naming} {locals : Scopes String Variable}
    {form : Form (κ × Ty)} {ty : Ty} :
    (form.map fun part => ((), part.2)).Typed Γ N locals ty ↔ form.Typed Γ N locals ty := by
  cases form with
  | localDefinition name typeName init scope => cases init <;> cases scope <;> simp [map, Typed]
  | dispatch receiver name args =>
    cases receiver <;> simp [map, Typed, MethodDef.Accepts, List.forall₂_map_left_iff]
  | staticDispatch => simp [map, Typed, MethodDef.Accepts, List.forall₂_map_left_iff]
  | conditional condition thenBranch elseBranch => cases elseBranch <;> simp [map, Typed]
  | block items => simp [map, Typed, Function.comp_def]
  | _ => simp [map, Typed]

/-- The typing rules look at the types of the parts only. -/
theorem Form.typed_congr {κ' : Type} {Γ : Context} {N : Naming} {locals : Scopes String Variable}
    {form : Form (κ × Ty)} {other : Form (κ' × Ty)} {ty : Ty}
    (h : form.map Prod.snd = other.map Prod.snd) :
    form.Typed Γ N locals ty ↔ other.Typed Γ N locals ty := by
  have hunit {κ : Type} (form : Form (κ × Ty)) :
      (form.map fun part => ((), part.2)) = (form.map Prod.snd).map ((), ·) := by
    rw [Form.map_map]
    rfl
  rw [← Form.typed_map_unit, hunit form, h, ← hunit other, Form.typed_map_unit]

/-- A term is elaborated, with local definitions in force: every node records its type and satisfies
the rule of its form, over the types of its parts. A part that is not checked may be anything. -/
inductive Term.WellTyped (Γ : Context) (N : ι → Naming) :
    Scopes String Variable → Term ι → Ty → Prop where
  | node {locals mark line type ty} (form : Form (Term ι × Ty))
      (hlabel : Γ.registry.label? ty = some type) (htyped : form.Typed Γ (N mark) locals ty)
      (hparts : ∀ part ∈ (form.scoped Γ line locals).children, ∀ scope, part.2 = some scope →
        WellTyped Γ N scope part.1.1 part.1.2) :
      WellTyped Γ N locals (.node mark line (form.map Prod.fst) (some type)) ty

end Lcpl
