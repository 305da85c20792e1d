import Lcpl.Proofs.Registry.Extension
import Lcpl.Proofs.Registry.Cycles
import Lcpl.Proofs.Registry.Inherited

/-!
# Class numbers in range

Classes refer to each other by number: a class to its parent, a feature to its owner, a signature to
the classes of its types. A registry is closed if all these are numbers of registered classes.
Registering a class and replacing one keep it so.

The comparison of a feature with those of the ancestors reads further classes and features, and runs
into no fault as long as the class and the feature are registered.

## Main definitions

* `Ty.Below`, `MethodDef.Below`, `AttributeDef.Below`, `ClassDef.Below` — no class number from a
  bound on
* `Registry.Closed` — every class number that is stored belongs to a registered class
* `Registry.ofClasses?` — classes registered one by one, with their methods

## Main results

* `Registry.Closed.add?`, `Registry.Closed.set` — what registration keeps
* `Registry.Closed.lt_size_of_mem_ancestors` — the walk along parents stays among the registered
  classes
* `Registry.ofClasses?_builtin` — the built-in classes are accepted
* `Registry.checkOverride_ne_fault`, `Registry.checkRedefinition_ne_fault`,
  `Registry.checkCycles_ne_fault`, `Registry.checkEntry_ne_fault` — checks on a registry do not
  fault
-/

namespace Lcpl

/-! ### Bounds -/

/-- The class of the type, if it has one, has a number below `n`. -/
def Ty.Below (n : Nat) (ty : Ty) : Prop := ∀ id, ty.class? = some id → id.index < n

/-- Every class number in a method is below `n`. -/
structure MethodDef.Below (n : Nat) (m : MethodDef) : Prop where
  owner : m.owner.index < n
  params : ∀ param ∈ m.params, param.ty.Below n
  returnTy : ∀ ty, m.returnTy = some ty → ty.Below n

/-- Every class number in an attribute is below `n`. -/
structure AttributeDef.Below (n : Nat) (attr : AttributeDef) : Prop where
  owner : attr.owner.index < n
  ty : attr.ty.Below n

/-- Every class number in a class is below `n`, and its position in the program is below `count`. -/
structure ClassDef.Below (n count : Nat) (c : ClassDef) : Prop where
  parent : ∀ id, c.parent = some id → id.index < n
  methods : ∀ m ∈ c.methods, m.Below n
  attributes : ∀ attr ∈ c.attributes, attr.Below n
  position : ∀ k, c.origin = .declared k → k < count

section Mono

variable {n n' : Nat}

theorem Ty.Below.mono {ty : Ty} (h : ty.Below n) (hle : n ≤ n') : ty.Below n' :=
  fun id hid => (h id hid).trans_le hle

theorem MethodDef.Below.mono {m : MethodDef} (h : m.Below n) (hle : n ≤ n') : m.Below n' where
  owner := h.owner.trans_le hle
  params param hparam := (h.params param hparam).mono hle
  returnTy ty hty := (h.returnTy ty hty).mono hle

theorem AttributeDef.Below.mono {attr : AttributeDef} (h : attr.Below n) (hle : n ≤ n') :
    attr.Below n' where
  owner := h.owner.trans_le hle
  ty := h.ty.mono hle

theorem ClassDef.Below.mono {count : Nat} {c : ClassDef} (h : c.Below n count) (hle : n ≤ n') :
    c.Below n' count where
  parent id hid := (h.parent id hid).trans_le hle
  methods m hm := (h.methods m hm).mono hle
  attributes attr hattr := (h.attributes attr hattr).mono hle
  position := h.position

end Mono

/-- A class before its parent is resolved and its features are registered stores no class number. -/
theorem ClassDef.below_declared {n count k : Nat} (name : String) (line : Line)
    (declaredParent : Option String) (hk : k < count) :
    (ClassDef.declared name line (.declared k) declaredParent).Below n count where
  parent _ hid := nomatch hid
  methods _ hm := nomatch hm
  attributes _ hattr := nomatch hattr
  position _ hk' := Origin.declared.inj hk' ▸ hk

/-! ### Failures that are not faults -/

theorem ok_ne_fault {α : Type} (value : α) (fault : Fault) :
    (.ok value : Except Failure α) ≠ .error (.fault fault) := by
  simp

theorem rejected_ne_fault {α : Type} (error : Located SemanticError) (fault : Fault) :
    (.error (.rejected error) : Except Failure α) ≠ .error (.fault fault) := by
  simp

namespace Registry

variable {registry after : Registry} {id : ClassId} {c : ClassDef} {ty : Ty} {name : String}
variable {count : Nat}

/-! ### Names lead to registered classes -/

section Indexed

variable (hindexed : registry.Indexed)
include hindexed

theorem Indexed.lt_size_of_find? (h : registry.find? name = some id) :
    id.index < registry.size := by
  obtain ⟨c, hc, -⟩ := hindexed.exists_class? h
  exact lt_size_of_class? hc

theorem Indexed.below_of_resolve? (h : registry.resolve? name = some ty) :
    ty.Below registry.size := by
  intro id hid
  rcases resolve?_eq_some_iff.mp h with ⟨-, rfl⟩ | ⟨-, found, hfind, rfl⟩
  · cases hid
  · obtain rfl := Option.some_inj.mp hid
    exact hindexed.lt_size_of_find? hfind

theorem Indexed.below_of_resolveReturn? (h : registry.resolveReturn? name = some ty) :
    ty.Below registry.size := by
  rcases declarable_of_resolveReturn? h with rfl | ⟨name, hname⟩
  · intro id hid
    cases hid
  · exact hindexed.below_of_resolve? hname

theorem OwnsMethod.below {m : MethodDef} (h : registry.OwnsMethod id m)
    (hid : id.index < registry.size) : m.Below registry.size where
  owner := h.owner ▸ hid
  params param hparam := hindexed.below_of_resolve? (h.params param hparam)
  returnTy _ hty := hindexed.below_of_resolveReturn? (h.returnTy.symm.trans hty)

theorem OwnsAttribute.below {attr : AttributeDef} (h : registry.OwnsAttribute id attr)
    (hid : id.index < registry.size) : attr.Below registry.size where
  owner := h.owner ▸ hid
  ty := hindexed.below_of_resolve? h.type

end Indexed

/-- A type below the number of classes can be recorded. -/
theorem isSome_label?_of_below (h : ty.Below registry.size) : (registry.label? ty).isSome := by
  cases ty with
  | object id =>
    obtain ⟨c, hc⟩ := exists_class?_of_lt (h id rfl)
    rw [label?, hc]
    rfl
  | _ => rfl

/-! ### Closed registries -/

/-- Every class number that is stored, in the index too, belongs to a registered class, and every
position to one of `count` declared classes. -/
structure Closed (registry : Registry) (count : Nat) : Prop where
  indexed : registry.Indexed
  below : ∀ {id c}, registry.class? id = some c → c.Below registry.size count

theorem Closed.add? (h : registry.Closed count) (hadd : registry.add? c = some after)
    (hc : c.Below registry.size count) : after.Closed count := by
  refine ⟨h.indexed.add? hadd, fun {id d} hd => ?_⟩
  have hle : registry.size ≤ after.size := by
    rw [size_of_add? hadd]
    exact Nat.le_succ _
  rw [class?_of_add? hadd] at hd
  split at hd
  · obtain rfl := Option.some_inj.mp hd
    exact hc.mono hle
  · exact (h.below hd).mono hle

theorem Closed.set {d : ClassDef} (h : registry.Closed count) (hd : registry.class? id = some d)
    (hname : c.name = d.name) (hc : c.Below registry.size count) :
    (registry.set id c).Closed count := by
  refine ⟨h.indexed.set hd hname, fun {other e} he => ?_⟩
  rw [size_set]
  rcases class?_set_cases hd he with ⟨-, rfl⟩ | ⟨-, he⟩
  · exact hc
  · exact h.below he

theorem closed_builtin (count : Nat) : builtin.Closed count := by
  refine ⟨indexed_builtin, fun {id c} hc => ?_⟩
  have hid := lt_size_of_class? hc
  refine ⟨?_, fun m hm => (coherent_builtin.methods hc m hm).below indexed_builtin hid,
    fun attr hattr => (coherent_builtin.attributes hc attr hattr).below indexed_builtin hid, ?_⟩
  all_goals rcases class?_builtin hc with ⟨-, rfl⟩ | ⟨-, rfl⟩ | ⟨-, rfl⟩
  · exact nofun
  · exact fun id h => Option.some_inj.mp h ▸ by decide
  · exact fun id h => Option.some_inj.mp h ▸ by decide
  · exact nofun
  · exact nofun
  · exact nofun

/-- The walk along parents stays among the registered classes. -/
theorem Closed.lt_size_of_mem_ancestors (h : registry.Closed count) {ancestor : ClassId}
    (hancestor : ancestor ∈ registry.ancestors id) : ancestor.index < registry.size := by
  obtain ⟨child, -, hparent⟩ := Relation.TransGen.tail'_iff.mp (mem_ancestors_iff.mp hancestor)
  obtain ⟨c, hc, hparent⟩ := Option.bind_eq_some_iff.mp hparent
  exact (h.below hc).parent ancestor hparent

/-! ### The built-in classes -/

/-- Registers classes one by one, each after its methods were added to it one by one. -/
def ofClasses? (classes : List ClassDef) : Option Registry :=
  classes.foldlM (fun registry c => do
    let c ← c.methods.foldlM ClassDef.addMethod? { c with methods := [] }
    registry.add? c) empty

/-- Neither a class nor a method of the built-in classes is refused. -/
theorem ofClasses?_builtin : ofClasses? builtin.classes.toList = some builtin := by
  decide +kernel

/-! ### Checks on a registry -/

theorem checkSignature_ne_fault (own inherited : MethodDef) (fault : Fault) :
    checkSignature own inherited ≠ .error (.fault fault) := by
  rw [checkSignature]
  split
  · exact rejected_ne_fault _ fault
  · next hlength =>
    obtain ⟨param?, hparams, -⟩ := exists_changedParam?_eq_ok (not_not.mp hlength)
    rw [hparams]
    split
    · exact rejected_ne_fault _ fault
    · cases param? with
      | none => exact ok_ne_fault () fault
      | some param => exact rejected_ne_fault _ fault

theorem checkOverride_ne_fault {own : MethodDef} (h : registry.ownMethod? id name = some own)
    (fault : Fault) : registry.checkOverride id name ≠ .error (.fault fault) := by
  rw [checkOverride, h]
  cases registry.overridden? id name with
  | none => exact ok_ne_fault () fault
  | some inherited => exact checkSignature_ne_fault own inherited fault

theorem checkRedefinition_ne_fault (h : registry.class? id = some c) (fault : Fault) :
    registry.checkRedefinition id name ≠ .error (.fault fault) := by
  rw [checkRedefinition, h]
  split
  · exact rejected_ne_fault _ fault
  · exact ok_ne_fault () fault

theorem checkCycles_ne_fault (fault : Fault) : registry.checkCycles ≠ .error (.fault fault) := by
  intro h
  obtain ⟨id, c, -, -, hfailure⟩ := checkCycles_eq_error_iff.mp h
  cases hfailure

theorem checkEntry_ne_fault (line : Line) (fault : Fault) :
    registry.checkEntry line ≠ .error (.fault fault) := by
  unfold checkEntry
  split
  · exact rejected_ne_fault _ fault
  · split
    · exact ok_ne_fault () fault
    · exact rejected_ne_fault _ fault

end Registry

end Lcpl
