import Mathlib.Data.List.Basic
import Mathlib.Tactic.SplitIfs
import Lcpl.Body.Variable
import Lcpl.Registry.Subtyping
import Lcpl.Proofs.Registry.Coherent

/-!
# Class numbers are names

The number of a class says when it was registered, and nothing else. Two registries that have the
same classes under different numbers answer every question alike, up to the numbers in the answer:
the ancestors of a class, the features that it has or inherits, and the conversions between types.

## Main definitions

* `Ty.rename`, `MethodDef.rename`, `AttributeDef.rename` — other numbers in place of those that
  occur
* `Registry.Renames` — the same classes under other numbers
* `Context.Renames` — a feature of such a class

## Main results

* `Registry.Renames.ancestors`, `Registry.Renames.lookupMethod?`,
  `Registry.Renames.lookupAttribute?` — the hierarchy and the inherited features
* `Registry.Renames.conversion?`, `Registry.Renames.join` — conversions between types
* `Context.Renames.lookup?` — the variables in force
-/

namespace Lcpl

/-! ### Numbers -/

section

variable (π : ClassId → ClassId)

/-- The type, with another number for its class. -/
def Ty.rename : Ty → Ty
  | .object id => .object (π id)
  | ty => ty

def ParamDef.rename (param : ParamDef) : ParamDef := { param with ty := param.ty.rename π }

/-- The method, with other numbers for its owner and for the classes in its signature. -/
def MethodDef.rename (m : MethodDef) : MethodDef :=
  { m with
    owner := π m.owner, params := m.params.map (ParamDef.rename π)
    returnTy := m.returnTy.map (Ty.rename π) }

/-- The attribute, with other numbers for its owner and for the class of its value. -/
def AttributeDef.rename (attr : AttributeDef) : AttributeDef :=
  { attr with owner := π attr.owner, ty := attr.ty.rename π }

def Variable.rename (found : Variable) : Variable := { found with ty := found.ty.rename π }

def Conversion.rename : Conversion → Conversion
  | .keep => .keep
  | .cast target => .cast (target.rename π)

end

namespace Ty

variable {π : ClassId → ClassId} {ty ty' : Ty}

@[simp] theorem rename_int : Ty.int.rename π = .int := rfl

@[simp] theorem rename_noValue : Ty.noValue.rename π = .noValue := rfl

@[simp] theorem rename_null : Ty.null.rename π = .null := rfl

@[simp] theorem rename_object (id : ClassId) : (Ty.object id).rename π = .object (π id) := rfl

theorem rename_injective (hπ : Function.Injective π) : Function.Injective (Ty.rename π) := by
  intro ty ty' h
  cases ty <;> cases ty' <;> simp_all [hπ.eq_iff]

@[simp] theorem rename_eq_int_iff : ty.rename π = .int ↔ ty = .int := by
  cases ty <;> simp

theorem class?_rename (ty : Ty) : (ty.rename π).class? = ty.class?.map π := by
  cases ty <;> rfl

end Ty

/-! ### Registries -/

/-- The second registry has the classes of the first, under the numbers that `π` gives to them. -/
structure Registry.Renames (π : ClassId → ClassId) (registry registry' : Registry) : Prop where
  injective : Function.Injective π
  object : π .object = .object
  string : π .string = .string
  size : registry'.size = registry.size
  name? : ∀ id, registry'.name? (π id) = registry.name? id
  find? : ∀ name, registry'.find? name = (registry.find? name).map π
  parent? : ∀ id, registry'.parent? (π id) = (registry.parent? id).map π
  ownMethod? : ∀ id name,
    registry'.ownMethod? (π id) name = (registry.ownMethod? id name).map (MethodDef.rename π)
  ownAttribute? : ∀ id name,
    registry'.ownAttribute? (π id) name =
      (registry.ownAttribute? id name).map (AttributeDef.rename π)

namespace Registry.Renames

variable {π : ClassId → ClassId} {registry registry' : Registry} {ty ty' : Ty}

theorem rename_eq_iff (h : Renames π registry registry') : ty.rename π = ty'.rename π ↔ ty = ty' :=
  (Ty.rename_injective h.injective).eq_iff

theorem rename_string (h : Renames π registry registry') : Ty.string.rename π = .string :=
  congrArg Ty.object h.string

theorem rename_eq_string_iff (h : Renames π registry registry') :
    ty.rename π = .string ↔ ty = .string := by
  rw [← h.rename_string, h.rename_eq_iff, h.rename_string]

theorem rename_eq_object_iff (h : Renames π registry registry') :
    ty.rename π = .object .object ↔ ty = .object .object := by
  have hobject : (Ty.object .object).rename π = .object .object := congrArg Ty.object h.object
  rw [← hobject, h.rename_eq_iff, hobject]

theorem resolve? (h : Renames π registry registry') (name : String) :
    registry'.resolve? name = (registry.resolve? name).map (Ty.rename π) := by
  unfold Registry.resolve?
  split_ifs
  · rfl
  · rw [h.find?, Option.map_map, Option.map_map]
    rfl

/-- A type is recorded by names, so it is recorded as before. -/
theorem label? (h : Renames π registry registry') (ty : Ty) :
    registry'.label? (ty.rename π) = registry.label? ty := by
  cases ty with
  | object id =>
    have hname (registry : Registry) (id : ClassId) :
        registry.label? (.object id) = (registry.name? id).map TypeName.object := by
      rw [Registry.label?, Registry.name?, Option.map_map]
      rfl
    rw [Ty.rename_object, hname, hname, h.name?]
  | _ => rfl

/-! ### Ancestors -/

theorem chain (h : Renames π registry registry') (steps : Nat) (from? : Option ClassId) :
    registry'.chain steps (from?.map π) = (registry.chain steps from?).map π := by
  induction steps generalizing from? with
  | zero => rfl
  | succ steps ih =>
    cases from? with
    | none => rfl
    | some id =>
      rw [Option.map_some, Registry.chain, Registry.chain, h.parent?, ih, List.map_cons]

theorem ancestors (h : Renames π registry registry') (id : ClassId) :
    registry'.ancestors (π id) = (registry.ancestors id).map π := by
  rw [Registry.ancestors, Registry.ancestors, h.size, h.parent?, h.chain]

theorem isStrictAncestor (h : Renames π registry registry') (ancestor id : ClassId) :
    registry'.isStrictAncestor (π ancestor) (π id) = registry.isStrictAncestor ancestor id := by
  rw [Registry.isStrictAncestor, Registry.isStrictAncestor, h.ancestors]
  exact decide_eq_decide.mpr (List.mem_map_of_injective h.injective)

theorem isStrictlyAbove (h : Renames π registry registry') (ty ty' : Ty) :
    registry'.isStrictlyAbove (ty.rename π) (ty'.rename π) = registry.isStrictlyAbove ty ty' := by
  cases ty <;> cases ty' <;> first | rfl | exact h.isStrictAncestor ..

/-- A search through the same classes finds the same. -/
theorem findSome?_map {α : Type} {own? own?' : ClassId → Option α} {f : α → α}
    (hown : ∀ id, own?' (π id) = (own? id).map f) (ids : List ClassId) :
    (ids.map π).findSome? own?' = (ids.findSome? own?).map f := by
  induction ids with
  | nil => rfl
  | cons id ids ih =>
    rw [List.map_cons, List.findSome?_cons, List.findSome?_cons, hown]
    cases own? id with
    | none => exact ih
    | some x => rfl

theorem lookupMethod? (h : Renames π registry registry') (id : ClassId) (name : String) :
    registry'.lookupMethod? (π id) name =
      (registry.lookupMethod? id name).map (MethodDef.rename π) := by
  rw [Registry.lookupMethod?, h.ancestors, ← List.map_cons]
  exact findSome?_map (fun id => h.ownMethod? id name) _

theorem lookupAttribute? (h : Renames π registry registry') (id : ClassId) (name : String) :
    registry'.lookupAttribute? (π id) name =
      (registry.lookupAttribute? id name).map (AttributeDef.rename π) := by
  rw [Registry.lookupAttribute?, h.ancestors, ← List.map_cons]
  exact findSome?_map (fun id => h.ownAttribute? id name) _

/-! ### Conversions -/

theorem conversion? (h : Renames π registry registry') (source target : Ty) :
    registry'.conversion? (source.rename π) (target.rename π) =
      (registry.conversion? source target).map (Conversion.rename π) := by
  have hstring (id : ClassId) : π id = .string ↔ id = .string := by
    rw [← h.string, h.injective.eq_iff, h.string]
  unfold Registry.conversion?
  simp only [h.rename_eq_iff]
  split_ifs
  · rfl
  · -- only a number or an object is ever wrapped, and only as an object
    cases source <;> cases target <;> try rfl
    · simp only [Ty.rename_object, Ty.rename_int, hstring]
      split_ifs <;> rfl
    · simp only [Ty.rename_object, h.isStrictAncestor]
      split_ifs <;> rfl

theorem join (h : Renames π registry registry') (ty ty' : Ty) :
    registry'.join (ty.rename π) (ty'.rename π) = (registry.join ty ty').rename π := by
  unfold Registry.join
  simp only [h.rename_eq_iff]
  split_ifs
  · rfl
  · cases ty <;> cases ty' <;> try rfl
    simp only [Ty.rename_object, h.isStrictAncestor]
    split_ifs <;> rfl

end Registry.Renames

/-! ### Contexts -/

/-- The local definitions of the second kind are those of the first, with other class numbers. -/
def Scopes.Renames (π : ClassId → ClassId) (locals locals' : Scopes String Variable) : Prop :=
  ∀ name, locals'.find? name = (locals.find? name).map (Variable.rename π)

/-- The second context is that of the same feature, where the classes have other numbers. -/
structure Context.Renames (π : ClassId → ClassId) (Γ Γ' : Context) : Prop where
  registry : Γ.registry.Renames π Γ'.registry
  currentClass : Γ'.currentClass = π Γ.currentClass
  line : Γ'.line = Γ.line
  params : Γ'.params = Γ.params.map (ParamDef.rename π)

namespace Scopes.Renames

variable {π : ClassId → ClassId} {locals locals' : Scopes String Variable}

theorem empty (π : ClassId → ClassId) : Scopes.Renames π .empty .empty := fun _ => rfl

theorem enter (h : Scopes.Renames π locals locals') :
    Scopes.Renames π locals.enter locals'.enter := by
  intro name
  rw [Scopes.find?_enter, Scopes.find?_enter, h]

theorem define (h : Scopes.Renames π locals locals') (name : String) (found : Variable) :
    Scopes.Renames π (locals.define name found) (locals'.define name (found.rename π)) := by
  intro other
  rw [Scopes.find?_define, Scopes.find?_define]
  split_ifs
  · rfl
  · exact h other

end Scopes.Renames

namespace Context.Renames

variable {π : ClassId → ClassId} {Γ Γ' : Context} {locals locals' : Scopes String Variable}

theorem param? (h : Γ.Renames π Γ') (name : String) :
    Γ'.param? name = (Γ.param? name).map (Variable.rename π) := by
  unfold Context.param?
  rw [h.params, ← List.map_reverse, List.find?_map, Option.map_map, Option.map_map]
  rfl

theorem attribute? (h : Γ.Renames π Γ') (name : String) :
    Γ'.attribute? name = (Γ.attribute? name).map (Variable.rename π) := by
  unfold Context.attribute?
  rw [h.currentClass, h.registry.lookupAttribute?]
  cases Γ.registry.lookupAttribute? Γ.currentClass name with
  | none => rfl
  | some attr =>
    rw [Option.map_some, Option.bind_some, Option.bind_some, Option.map_map]
    change (Γ'.registry.name? (π attr.owner)).map _ = _
    rw [h.registry.name?]
    rfl

/-- A name stands for the same variable. -/
theorem lookup? (h : Γ.Renames π Γ') (hlocals : Scopes.Renames π locals locals') (name : String) :
    Γ'.lookup? locals' name = (Γ.lookup? locals name).map (Variable.rename π) := by
  unfold Context.lookup?
  rw [hlocals, h.param?, h.attribute?]
  cases locals.find? name with
  | some found => rfl
  | none =>
    cases Γ.param? name with
    | some found => rfl
    | none => rfl

end Context.Renames

end Lcpl
