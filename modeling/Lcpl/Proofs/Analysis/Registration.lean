import Lcpl.Proofs.Analysis.Outline
import Lcpl.Proofs.Registry.Range

/-!
# Calls on a registry

A registry is built up by calls: a class is registered, perhaps with features of its own already;
the parent of a class is assigned; a method or an attribute is added to a class, as it is or from a
declaration whose types are resolved first. Each of them is an operation on the registry, which
leaves whatever it has written when it ends. That a refused call has written nothing depends on the
order of its checks and writes: the name is looked up before the index and the list of classes are
written, and all types are resolved before a feature is added. The declaration may have been
annotated by then.

Whatever the calls were, the registry is what the record of the accepted ones says: each class has
the features that were accepted for it, in that order, and the index leads to it under its name.

## Main definitions

* `ClassDef.Change`, `ClassDef.Change.make` — a change to a single class
* `Draft` — a class on its way to the registry
* `Registry.Call`, `Registry.perform` — a call on a registry, and what it does
* `Registry.ofCalls` — the registry after calls on the one without classes
* `Registry.Admits` — what is demanded for a call to be accepted
* `Registry.changes`, `Registry.recordOf` — the changes that accepted calls make

## Main results

* `Registry.outcome_perform` — all that a call can come to
* `Registry.Kept.perform`, `Registry.kept_ofCalls` — the registry says what the record says
* `Registry.Kept.ownMethod?_eq`, `Registry.Kept.ownAttribute?_eq` — what was accepted is found
* `Registry.calls_keep_registry` — the registry after any calls
-/

namespace Lcpl

namespace ClassDef

/-! ### Changes to a class -/

/-- A change that is asked of a class. -/
inductive Change where
  | setParent (parent : Option ClassId)
  | addMethod (m : MethodDef)
  | addAttribute (attr : AttributeDef)
deriving DecidableEq, Repr

/-- The method that a change adds. -/
def Change.method? : Change → Option MethodDef
  | addMethod m => some m
  | _ => none

/-- The attribute that a change adds. -/
def Change.attribute? : Change → Option AttributeDef
  | addAttribute attr => some attr
  | _ => none

/-- Makes a change, unless that is refused, and says whether it did. -/
def Change.make : Change → StateM ClassDef Bool
  | setParent parent => do
      ClassDef.setParent parent
      return true
  | addMethod m => ClassDef.addMethod m
  | addAttribute attr => ClassDef.addAttribute attr

/-- The name that the change brings is not taken. -/
def Admits (c : ClassDef) : Change → Prop
  | .setParent _ => True
  | .addMethod m => c.method? m.name = none
  | .addAttribute attr => c.attribute? attr.name = none

/-- The class with a change. -/
def changed (c : ClassDef) : Change → ClassDef
  | .setParent parent => { c with parent }
  | .addMethod m => { c with methods := c.methods ++ [m] }
  | .addAttribute attr => { c with attributes := c.attributes ++ [attr] }

/-- The class that several changes leave. -/
def revise (c : ClassDef) : List Change → ClassDef
  | [] => c
  | change :: changes => (change.make.run c).2.revise changes

/-- Of several changes, those that are accepted. -/
def accepted (c : ClassDef) : List Change → List Change
  | [] => []
  | change :: changes =>
      (if (change.make.run c).1 then [change] else []) ++ (change.make.run c).2.accepted changes

variable {c c' c'' : ClassDef} {change : Change} {changes record : List Change}

theorem run_make_of_admits (h : c.Admits change) :
    change.make.run c = (true, c.changed change) := by
  cases change with
  | setParent parent => rfl
  | addMethod m => exact run_addMethod_of_none h
  | addAttribute attr => exact run_addAttribute_of_none h

/-- A change that is refused leaves the class as it was. -/
theorem run_make_of_not_admits (h : ¬ c.Admits change) : change.make.run c = (false, c) := by
  cases change with
  | setParent parent => exact absurd trivial h
  | addMethod m => exact run_addMethod_of_isSome (Option.isSome_iff_ne_none.mpr h)
  | addAttribute attr => exact run_addAttribute_of_isSome (Option.isSome_iff_ne_none.mpr h)

/-- The class is the same one, apart from its parent and from features behind those that it had. -/
structure Continues (c c' : ClassDef) : Prop where
  name_eq : c'.name = c.name
  line_eq : c'.line = c.line
  origin_eq : c'.origin = c.origin
  declaredParent_eq : c'.declaredParent = c.declaredParent
  methods : c.methods <+: c'.methods
  attributes : c.attributes <+: c'.attributes

theorem Continues.refl (c : ClassDef) : c.Continues c :=
  ⟨rfl, rfl, rfl, rfl, List.prefix_rfl, List.prefix_rfl⟩

theorem Continues.trans (h : c.Continues c') (h' : c'.Continues c'') : c.Continues c'' where
  name_eq := h'.name_eq.trans h.name_eq
  line_eq := h'.line_eq.trans h.line_eq
  origin_eq := h'.origin_eq.trans h.origin_eq
  declaredParent_eq := h'.declaredParent_eq.trans h.declaredParent_eq
  methods := h.methods.trans h'.methods
  attributes := h.attributes.trans h'.attributes

theorem continues_changed (c : ClassDef) (change : Change) : c.Continues (c.changed change) := by
  cases change with
  | setParent parent => exact ⟨rfl, rfl, rfl, rfl, List.prefix_rfl, List.prefix_rfl⟩
  | addMethod m => exact ⟨rfl, rfl, rfl, rfl, List.prefix_append .., List.prefix_rfl⟩
  | addAttribute attr => exact ⟨rfl, rfl, rfl, rfl, List.prefix_rfl, List.prefix_append ..⟩

theorem continues_revise (c : ClassDef) (changes : List Change) :
    c.Continues (c.revise changes) := by
  induction changes generalizing c with
  | nil => exact .refl c
  | cons change changes ih =>
    rw [revise]
    by_cases h : c.Admits change
    · rw [run_make_of_admits h]
      exact (c.continues_changed change).trans (ih _)
    · rw [run_make_of_not_admits h]
      exact ih c

/-- The features of the class are those of the changes on record, in order, and no two of a kind
have the same name. -/
structure Holds (c : ClassDef) (record : List Change) : Prop where
  methods_eq : c.methods = record.filterMap Change.method?
  attributes_eq : c.attributes = record.filterMap Change.attribute?
  nodup_methods : (c.methods.map MethodDef.name).Nodup
  nodup_attributes : (c.attributes.map AttributeDef.name).Nodup

theorem nodup_map_concat {α : Type} {key : α → String} {xs : List α} {x : α}
    (h : (xs.map key).Nodup) (hnew : xs.find? (fun y => key y = key x) = none) :
    ((xs ++ [x]).map key).Nodup := by
  rw [List.map_append, List.map_singleton, List.nodup_append_comm, List.singleton_append,
    List.nodup_cons]
  refine ⟨fun hmem => ?_, h⟩
  obtain ⟨y, hy, hkey⟩ := List.mem_map.mp hmem
  simpa [hkey] using List.find?_eq_none.mp hnew y hy

/-- An accepted change is entered on record. -/
theorem Holds.changed (h : c.Holds record) (hadmits : c.Admits change) :
    (c.changed change).Holds (record ++ [change]) := by
  obtain ⟨hmethods, hattributes, hnodup, hnodup'⟩ := h
  cases change with
  | setParent parent =>
    exact ⟨by simp [ClassDef.changed, hmethods, Change.method?, List.filterMap_cons],
      by simp [ClassDef.changed, hattributes, Change.attribute?, List.filterMap_cons], hnodup,
      hnodup'⟩
  | addMethod m =>
    exact ⟨by simp [ClassDef.changed, hmethods, Change.method?],
      by simp [ClassDef.changed, hattributes, Change.attribute?, List.filterMap_cons],
      nodup_map_concat hnodup hadmits, hnodup'⟩
  | addAttribute attr =>
    exact ⟨by simp [ClassDef.changed, hmethods, Change.method?, List.filterMap_cons],
      by simp [ClassDef.changed, hattributes, Change.attribute?], hnodup,
      nodup_map_concat hnodup' hadmits⟩

theorem Holds.revise (h : c.Holds record) (changes : List Change) :
    (c.revise changes).Holds (record ++ c.accepted changes) := by
  induction changes generalizing c record with
  | nil => simpa [ClassDef.revise, accepted] using h
  | cons change changes ih =>
    rw [ClassDef.revise, accepted]
    by_cases hadmits : c.Admits change
    · rw [run_make_of_admits hadmits]
      simpa using ih (h.changed hadmits)
    · rw [run_make_of_not_admits hadmits]
      simpa using ih h

end ClassDef

/-- A class on its way to the registry, with the changes that are asked of it until then. -/
structure Draft where
  name : String
  line : Line
  origin : Origin
  declaredParent : Option String
  changes : List ClassDef.Change

namespace Draft

/-- The class as it is begun. -/
def begun (draft : Draft) : ClassDef :=
  .declared draft.name draft.line draft.origin draft.declaredParent

/-- The class as it is registered. -/
def classDef (draft : Draft) : ClassDef := draft.begun.revise draft.changes

/-- The changes that were accepted. -/
def accepted (draft : Draft) : List ClassDef.Change := draft.begun.accepted draft.changes

theorem name_classDef (draft : Draft) : draft.classDef.name = draft.name :=
  (draft.begun.continues_revise draft.changes).name_eq

theorem holds_classDef (draft : Draft) : draft.classDef.Holds draft.accepted := by
  have hbegun : draft.begun.Holds [] := ⟨rfl, rfl, List.nodup_nil, List.nodup_nil⟩
  exact hbegun.revise draft.changes

end Draft

namespace Registry

/-! ### Calls -/

/-- A call on a registry. -/
inductive Call where
  /-- Register a class. -/
  | register (draft : Draft)
  /-- Change a registered class. -/
  | change (id : ClassId) (change : ClassDef.Change)
  /-- Add a method to a registered class by its declaration. -/
  | declareMethod (id : ClassId) (m : Method)
  /-- Add an attribute to a registered class by its declaration. -/
  | declareAttribute (id : ClassId) (a : Attribute)

/-- Runs a step on a declaration, and says whether it succeeds. -/
def declaring {α : Type} (step : Step (Resolving × α) Unit) (declaration : α) :
    StateM Registry Bool :=
  modifyGet fun registry =>
    let (result, state, _) := step.runFrom (⟨registry, #[]⟩, declaration)
    (result.isOk, state.registry)

/-- Performs a call, and says whether it is accepted. -/
def Call.operation : Call → StateM Registry Bool
  | register draft => do
      let id? ← addClass draft.classDef
      return id?.isSome
  | change id asked => do
      let made? ← onClass id asked.make
      return made? = some true
  | declareMethod id m => declaring (Signature.declareMethod id) m
  | declareAttribute id a => declaring (Signature.declareAttribute id) a

/-- Performs a call on a registry: whether it is accepted, and the registry that is left. -/
def perform (registry : Registry) (call : Call) : Bool × Registry := call.operation.run registry

/-- What is demanded for a call to be accepted: the class is registered, the name is not taken, and
the types resolve. -/
def Admits (registry : Registry) : Call → Prop
  | .register draft => registry.find? draft.name = none
  | .change id change => ∃ c, registry.class? id = some c ∧ c.Admits change
  | .declareMethod id m =>
      (∃ c, registry.class? id = some c ∧ c.method? m.name = none) ∧
        ∀ param ∈ m.params, (registry.resolve? param.typeName).isSome
  | .declareAttribute id a =>
      (∃ c, registry.class? id = some c ∧ c.attribute? a.name = none) ∧
        (registry.resolve? a.typeName).isSome

/-- The changes that a call makes to classes, if it is accepted. A class that is registered brings
its own with it. -/
def changes (registry : Registry) : Call → List (ClassId × ClassDef.Change)
  | .register draft => draft.accepted.map (registry.next, ·)
  | .change id change => [(id, change)]
  | .declareMethod id m => [(id, .addMethod (m.known registry id))]
  | .declareAttribute id a => (a.known? registry id).toList.map fun attr => (id, .addAttribute attr)

/-- Calls one after the other. -/
def performAll (registry : Registry) (calls : List Call) : Registry :=
  calls.foldl (fun registry call => (registry.perform call).2) registry

/-- The registry after calls on the one without classes. -/
def ofCalls (calls : List Call) : Registry := empty.performAll calls

/-- The changes that a call makes. -/
def made (registry : Registry) (call : Call) : List (ClassId × ClassDef.Change) :=
  if (registry.perform call).1 then registry.changes call else []

/-- The changes that calls make, in order. -/
def recordFrom (registry : Registry) : List Call → List (ClassId × ClassDef.Change)
  | [] => []
  | call :: calls => registry.made call ++ (registry.perform call).2.recordFrom calls

/-- The changes that were made by calls on the registry without classes. -/
def recordOf (calls : List Call) : List (ClassId × ClassDef.Change) := empty.recordFrom calls

/-- Of the changes on record, those to one class. -/
def changesOf (id : ClassId) (record : List (ClassId × ClassDef.Change)) : List ClassDef.Change :=
  (record.filter fun entry => entry.1 = id).map Prod.snd

/-! ### One call -/

/-- All that a call can come to. -/
inductive Outcome (registry : Registry) : Call → Bool × Registry → Prop where
  | refused {call} (h : ¬ registry.Admits call) : Outcome registry call (false, registry)
  | registered {draft after} (hadmits : registry.Admits (.register draft))
      (h : registry.add? draft.classDef = some after) :
        Outcome registry (.register draft) (true, after)
  | changed {call id c change} (hadmits : registry.Admits call) (hc : registry.class? id = some c)
      (h : c.Admits change) (hchanges : registry.changes call = [(id, change)]) :
      Outcome registry call (true, registry.set id (c.changed change))

variable {registry before after : Registry} {id : ClassId} {c : ClassDef} {call : Call}
variable {record : List (ClassId × ClassDef.Change)}

theorem perform_register_of_some {draft : Draft} (h : registry.add? draft.classDef = some after) :
    registry.perform (.register draft) = (true, after) := by
  obtain ⟨hnew, rfl⟩ := add?_eq_some_iff.mp h
  rw [perform, Call.operation, StateT.run_bind, run_addClass_of_none hnew]
  rfl

theorem perform_register_of_none {draft : Draft} (h : registry.add? draft.classDef = none) :
    registry.perform (.register draft) = (false, registry) := by
  rw [perform, Call.operation, StateT.run_bind, run_addClass_of_isSome (add?_eq_none_iff.mp h)]
  rfl

theorem outcome_register (registry : Registry) (draft : Draft) :
    registry.Outcome (.register draft) (registry.perform (.register draft)) := by
  have hadmits : registry.Admits (.register draft) ↔ registry.find? draft.classDef.name = none := by
    rw [draft.name_classDef]
    rfl
  cases hadd : registry.add? draft.classDef with
  | some after =>
    rw [perform_register_of_some hadd]
    exact .registered (hadmits.mpr (find?_eq_none_of_add? hadd)) hadd
  | none =>
    rw [perform_register_of_none hadd]
    refine .refused fun h => ?_
    exact Option.isSome_iff_ne_none.mp (add?_eq_none_iff.mp hadd) (hadmits.mp h)

theorem outcome_change (registry : Registry) (id : ClassId) (change : ClassDef.Change) :
    registry.Outcome (.change id change) (registry.perform (.change id change)) := by
  rw [perform, Call.operation, StateT.run_bind]
  cases hc : registry.class? id with
  | none =>
    rw [run_onClass_of_none hc]
    exact .refused (by simp [Admits, hc])
  | some c =>
    rw [run_onClass_of_some hc]
    by_cases hadmits : c.Admits change
    · rw [ClassDef.run_make_of_admits hadmits]
      exact .changed ⟨c, hc, hadmits⟩ hc hadmits rfl
    · -- what is put back is the class that was there
      rw [ClassDef.run_make_of_not_admits hadmits, set_of_class? hc]
      exact .refused (by simpa [Admits, hc] using hadmits)

theorem perform_declaring {α : Type} (step : Step (Resolving × α) Unit) (declaration : α) :
    (declaring step declaration).run registry =
      ((step.runFrom (⟨registry, #[]⟩, declaration)).1.isOk,
        (step.runFrom (⟨registry, #[]⟩, declaration)).2.1.registry) := rfl

/-- The types of the parameters are resolved before anything is registered. -/
theorem outcome_declareMethod (registry : Registry) (id : ClassId) (m : Method) :
    registry.Outcome (.declareMethod id m) (registry.perform (.declareMethod id m)) := by
  have hparams :=
    resolveParams_eq_ok_iff (fun name => rfl : ∀ name, registry.find? name = _) m.params
  obtain ⟨log, hrun⟩ := Signature.runFrom_declareMethod id registry #[] m
  rw [perform, Call.operation, perform_declaring, hrun]
  cases hc : registry.class? id with
  | none => exact .refused (by simp [Admits, hc])
  | some c =>
    cases hfree : c.method? m.name with
    | some taken =>
      simp only [hfree, Option.isSome_some, if_true]
      exact .refused (by simp [Admits, hc, hfree])
    | none =>
      simp only [hfree, Option.isSome_none, Bool.false_eq_true, if_false]
      rcases hresolve : registry.resolveParams m.params with ⟨failure | defs, params⟩
      · -- the parameters in front of the one that fails are annotated, the registry is as it was
        refine .refused ?_
        rintro ⟨-, hall⟩
        have hok := (hparams _).mpr ⟨hall, rfl⟩
        rw [hresolve] at hok
        cases hok
      · obtain ⟨hall, rfl⟩ := (hparams defs).mp (by rw [hresolve])
        have hcall : registry.Admits (.declareMethod id m) := ⟨⟨c, hc, hfree⟩, hall⟩
        have hadmits : c.Admits (.addMethod (m.known registry id)) := hfree
        exact .changed hcall hc hadmits rfl

theorem outcome_declareAttribute (registry : Registry) (id : ClassId) (a : Attribute) :
    registry.Outcome (.declareAttribute id a) (registry.perform (.declareAttribute id a)) := by
  rw [perform, Call.operation, perform_declaring, Signature.runFrom_declareAttribute]
  cases htype : registry.resolve? a.typeName with
  | none => exact .refused (by simp [Admits, htype])
  | some ty =>
    cases hc : registry.class? id with
    | none => exact .refused (by simp [Admits, hc])
    | some c =>
      cases hfree : c.attribute? a.name with
      | some taken =>
        simp only [hfree, Option.isSome_some, if_true]
        exact .refused (by simp [Admits, hc, hfree])
      | none =>
        simp only [hfree, Option.isSome_none, Bool.false_eq_true, if_false]
        have hcall : registry.Admits (.declareAttribute id a) :=
          ⟨⟨c, hc, hfree⟩, Option.isSome_of_eq_some htype⟩
        have hadmits : c.Admits (.addAttribute ⟨a.name, id, a.typeName, ty⟩) := hfree
        refine .changed hcall hc hadmits ?_
        rw [changes, Attribute.known?, htype]
        rfl

/-- A call is refused and changes nothing, or it registers a class, or it makes a single change to a
class. What it comes to is told by what is demanded of it. -/
theorem outcome_perform (registry : Registry) (call : Call) :
    registry.Outcome call (registry.perform call) := by
  cases call with
  | register draft => exact registry.outcome_register draft
  | change id change => exact registry.outcome_change id change
  | declareMethod id m => exact registry.outcome_declareMethod id m
  | declareAttribute id a => exact registry.outcome_declareAttribute id a

theorem perform_eq_true_iff : (registry.perform call).1 = true ↔ registry.Admits call := by
  have h := registry.outcome_perform call
  generalize registry.perform call = outcome at h
  cases h with
  | refused h => exact iff_of_false Bool.false_ne_true h
  | registered hadmits => exact iff_of_true rfl hadmits
  | changed hadmits => exact iff_of_true rfl hadmits

theorem perform_of_refused (h : (registry.perform call).1 = false) :
    (registry.perform call).2 = registry := by
  have houtcome := registry.outcome_perform call
  generalize registry.perform call = outcome at h houtcome
  cases houtcome with
  | refused => rfl
  | registered => cases h
  | changed => cases h

/-! ### The record -/

/-- The registry says what the record says: the index is in step with the classes, each class has
the features on record for it, and the record is about registered classes only. -/
structure Kept (registry : Registry) (record : List (ClassId × ClassDef.Change)) : Prop where
  indexed : registry.Indexed
  named : registry.Named
  holds : ∀ {id c}, registry.class? id = some c → c.Holds (changesOf id record)
  lt_size : ∀ {entry}, entry ∈ record → entry.1.index < registry.size

theorem changesOf_append (id : ClassId) (record more : List (ClassId × ClassDef.Change)) :
    changesOf id (record ++ more) = changesOf id record ++ changesOf id more := by
  rw [changesOf, changesOf, changesOf, List.filter_append, List.map_append]

theorem changesOf_eq_nil (h : ∀ entry ∈ record, entry.1 ≠ id) : changesOf id record = [] := by
  rw [changesOf, List.filter_eq_nil_iff.mpr (by simpa using h), List.map_nil]

theorem changesOf_map (id : ClassId) (changes : List ClassDef.Change) :
    changesOf id (changes.map (id, ·)) = changes := by
  rw [changesOf, List.filter_eq_self.mpr (by simp), List.map_map]
  exact List.map_id changes

/-- A registered class brings its own features with it. -/
theorem Kept.add? {draft : Draft} (h : registry.Kept record)
    (hadd : registry.add? draft.classDef = some after) :
    after.Kept (record ++ draft.accepted.map (registry.next, ·)) := by
  have hold {id : ClassId} (hid : id ≠ registry.next) :
      changesOf id (draft.accepted.map (registry.next, ·)) = [] :=
    changesOf_eq_nil (by simpa using fun _ _ => hid.symm)
  refine ⟨h.indexed.add? hadd, h.named.add? hadd, fun {id c} hc => ?_, fun {entry} hentry => ?_⟩
  · rw [class?_of_add? hadd] at hc
    rw [changesOf_append]
    split at hc
    · next hid =>
      obtain rfl := Option.some_inj.mp hc
      -- nothing is on record for a class before it is registered
      have hnew : changesOf id record = [] := changesOf_eq_nil fun entry hentry heq => by
        have := h.lt_size hentry
        rw [heq, hid] at this
        exact Nat.lt_irrefl _ this
      rw [hnew, hid, changesOf_map, List.nil_append]
      exact draft.holds_classDef
    · next hid =>
      rw [hold hid, List.append_nil]
      exact h.holds hc
  · rw [size_of_add? hadd]
    rcases List.mem_append.mp hentry with hentry | hentry
    · exact Nat.lt_succ_of_lt (h.lt_size hentry)
    · obtain ⟨_, -, rfl⟩ := List.mem_map.mp hentry
      exact Nat.lt_succ_self _

/-- An accepted change is entered on record for its class. -/
theorem Kept.set {change : ClassDef.Change} (h : registry.Kept record)
    (hc : registry.class? id = some c) (hadmits : c.Admits change) :
    (registry.set id (c.changed change)).Kept (record ++ [(id, change)]) := by
  have hname := (c.continues_changed change).name_eq
  refine ⟨h.indexed.set hc hname, h.named.set hc hname, fun {other d} hd => ?_,
    fun {entry} hentry => ?_⟩
  · rw [changesOf_append]
    rcases class?_set_cases hc hd with ⟨rfl, rfl⟩ | ⟨hother, hd⟩
    · rw [show changesOf other [(other, change)] = [change] from changesOf_map other [change]]
      exact (h.holds hc).changed hadmits
    · have hnone : changesOf other [(id, change)] = [] :=
        changesOf_eq_nil (by simpa using Ne.symm hother)
      rw [hnone, List.append_nil]
      exact h.holds hd
  · rw [size_set]
    rcases List.mem_append.mp hentry with hentry | hentry
    · exact h.lt_size hentry
    · obtain rfl := List.mem_singleton.mp hentry
      exact lt_size_of_class? hc

theorem Kept.perform (h : registry.Kept record) (call : Call) :
    (registry.perform call).2.Kept (record ++ registry.made call) := by
  rw [made]
  have houtcome := registry.outcome_perform call
  generalize registry.perform call = outcome at houtcome
  cases houtcome with
  | refused => simpa using h
  | registered hadmits hadd => exact h.add? hadd
  | changed _ hc hadmits hchanges =>
    rw [if_pos rfl, hchanges]
    exact h.set hc hadmits

theorem Kept.performAll (h : registry.Kept record) (calls : List Call) :
    (registry.performAll calls).Kept (record ++ registry.recordFrom calls) := by
  induction calls generalizing registry record with
  | nil => simpa [Registry.performAll, recordFrom] using h
  | cons call calls ih =>
    rw [recordFrom, ← List.append_assoc]
    exact ih (h.perform call)

theorem kept_ofCalls (calls : List Call) : (ofCalls calls).Kept (recordOf calls) := by
  have hempty : empty.Kept [] := by
    have hnone (id : ClassId) (c : ClassDef) : empty.class? id ≠ some c := by
      rw [class?_eq_none_iff.mpr (Nat.zero_le _)]
      simp
    exact ⟨fun _ _ hentry => absurd hentry List.not_mem_nil, fun _ _ hc => absurd hc (hnone _ _),
      fun hc => absurd hc (hnone _ _), fun hentry => absurd hentry List.not_mem_nil⟩
  exact hempty.performAll calls

/-! ### What is found -/

namespace Kept

variable (h : registry.Kept record)
include h

theorem find?_eq_some_iff {name : String} :
    registry.find? name = some id ↔ registry.name? id = some name :=
  find?_eq_some_iff_name? h.indexed h.named

theorem nodup_names : (registry.classes.toList.map ClassDef.name).Nodup := by
  have hget (i : Nat) : (registry.classes.toList.map ClassDef.name)[i]? = registry.name? ⟨i⟩ := by
    simp [name?, class?]
  rw [List.nodup_iff_getElem?_ne_getElem?]
  intro i j hij hj hsame
  -- two classes of one name would be found under one number
  have hname : registry.name? ⟨j⟩ = some _ := (hget j).symm.trans (List.getElem?_eq_getElem hj)
  have hname' := (hget i).symm.trans (hsame.trans ((hget j).trans hname))
  have hfind := h.find?_eq_some_iff.mpr hname
  rw [h.find?_eq_some_iff.mpr hname', Option.some_inj, ClassId.mk.injEq] at hfind
  exact hij.ne hfind

/-- A change on record was made to a class that is registered and holds it. -/
theorem exists_holds {change : ClassDef.Change} (hrecord : (id, change) ∈ record) :
    ∃ c changes, registry.class? id = some c ∧ c.Holds changes ∧ change ∈ changes := by
  obtain ⟨c, hc⟩ := exists_class?_of_lt (h.lt_size hrecord)
  refine ⟨c, changesOf id record, hc, h.holds hc, ?_⟩
  exact List.mem_map.mpr ⟨(id, change), List.mem_filter.mpr ⟨hrecord, by simp⟩, rfl⟩

theorem ownMethod?_eq {m : MethodDef} (hrecord : (id, .addMethod m) ∈ record) :
    registry.ownMethod? id m.name = some m := by
  obtain ⟨c, changes, hc, hholds, hchange⟩ := h.exists_holds hrecord
  have hmem : m ∈ c.methods := by
    rw [hholds.methods_eq]
    exact List.mem_filterMap.mpr ⟨.addMethod m, hchange, rfl⟩
  rw [ownMethod?, hc, Option.bind_some]
  exact (Program.find?_eq_some_iff_of_nodup hholds.nodup_methods).mpr ⟨hmem, rfl⟩

theorem ownAttribute?_eq {attr : AttributeDef} (hrecord : (id, .addAttribute attr) ∈ record) :
    registry.ownAttribute? id attr.name = some attr := by
  obtain ⟨c, changes, hc, hholds, hchange⟩ := h.exists_holds hrecord
  have hmem : attr ∈ c.attributes := by
    rw [hholds.attributes_eq]
    exact List.mem_filterMap.mpr ⟨.addAttribute attr, hchange, rfl⟩
  rw [ownAttribute?, hc, Option.bind_some]
  exact (Program.find?_eq_some_iff_of_nodup hholds.nodup_attributes).mpr ⟨hmem, rfl⟩

end Kept

/-! ### Later calls -/

theorem ofCalls_append (calls more : List Call) :
    ofCalls (calls ++ more) = (ofCalls calls).performAll more :=
  List.foldl_append

theorem recordFrom_append (registry : Registry) (calls more : List Call) :
    registry.recordFrom (calls ++ more) =
      registry.recordFrom calls ++ (registry.performAll calls).recordFrom more := by
  induction calls generalizing registry with
  | nil => rfl
  | cons call calls ih =>
    rw [List.cons_append, recordFrom, recordFrom, ih, List.append_assoc]
    rfl

/-- A registered class stays registered under its number. -/
theorem continues_perform (hc : registry.class? id = some c) (call : Call) :
    ∃ c', (registry.perform call).2.class? id = some c' ∧ c.Continues c' := by
  have houtcome := registry.outcome_perform call
  generalize registry.perform call = outcome at houtcome
  cases houtcome with
  | refused => exact ⟨c, hc, .refl c⟩
  | registered _ hadd => exact ⟨c, class?_eq_some_of_add? hadd hc, .refl c⟩
  | @changed _ changed d change _ hd _ _ =>
    by_cases hid : id = changed
    · obtain rfl := hid
      obtain rfl := Option.some_inj.mp (hc.symm.trans hd)
      exact ⟨_, by rw [class?_set_of_class? hd, if_pos rfl], c.continues_changed change⟩
    · exact ⟨c, by rw [class?_set_of_class? hd, if_neg hid, hc], .refl c⟩

theorem continues_performAll (hc : registry.class? id = some c) (calls : List Call) :
    ∃ c', (registry.performAll calls).class? id = some c' ∧ c.Continues c' := by
  induction calls generalizing registry c with
  | nil => exact ⟨c, hc, .refl c⟩
  | cons call calls ih =>
    obtain ⟨c', hc', hcontinues⟩ := continues_perform hc call
    obtain ⟨c'', hc'', hcontinues'⟩ := ih hc'
    exact ⟨c'', hc'', hcontinues.trans hcontinues'⟩

/-- What a call has registered is found in a later registry: a class under its name and number, and
the methods and attributes in their classes as they were accepted. -/
structure Retains (registry : Registry) (call : Call) (later : Registry) : Prop where
  registered : ∀ draft, call = .register draft →
    later.find? draft.name = some registry.next ∧
      ∃ c, later.class? registry.next = some c ∧ draft.classDef.Continues c
  methods : ∀ id m, (id, .addMethod m) ∈ registry.changes call →
    later.ownMethod? id m.name = some m
  attributes : ∀ id attr, (id, .addAttribute attr) ∈ registry.changes call →
    later.ownAttribute? id attr.name = some attr

/-- What is registered is found after any further calls. -/
theorem retains_of_accepted (calls further : List Call)
    (haccepted : ((ofCalls calls).perform call).1 = true) :
    (ofCalls calls).Retains call (ofCalls (calls ++ call :: further)) := by
  have hkept := kept_ofCalls (calls ++ call :: further)
  have hmade : (ofCalls calls).made call = (ofCalls calls).changes call := if_pos haccepted
  -- an accepted call is on record, in front of the further ones
  have hrecord {entry} (hentry : entry ∈ (ofCalls calls).changes call) :
      entry ∈ recordOf (calls ++ call :: further) := by
    rw [recordOf, recordFrom_append, recordFrom]
    exact List.mem_append_right _ (List.mem_append_left _ (hmade.symm ▸ hentry))
  refine ⟨?_, fun id m hm => hkept.ownMethod?_eq (hrecord hm),
    fun id attr hattr => hkept.ownAttribute?_eq (hrecord hattr)⟩
  rintro draft rfl
  cases hadd : (ofCalls calls).add? draft.classDef with
  | none =>
    rw [perform_register_of_none hadd] at haccepted
    cases haccepted
  | some after =>
    -- the registry right behind the call holds the class as drafted, and later calls continue it
    have hlater : ofCalls (calls ++ .register draft :: further) = after.performAll further := by
      rw [ofCalls_append, performAll, List.foldl_cons, perform_register_of_some hadd]
      rfl
    have hnew : after.class? (ofCalls calls).next = some draft.classDef := by
      rw [class?_of_add? hadd, if_pos rfl]
    obtain ⟨c, hc, hcontinues⟩ := continues_performAll hnew further
    rw [← hlater] at hc
    refine ⟨hkept.find?_eq_some_iff.mpr ?_, c, hc, hcontinues⟩
    rw [name?, hc, Option.map_some, hcontinues.name_eq, draft.name_classDef]

/-- The registry after any calls, accepted and refused ones in any order. No two classes have the
same name, and a class is found by its name; in each class no two methods and no two attributes have
the same name, and its methods are the accepted ones in the order of their acceptance. A call is
accepted if its class is registered, its name is free and its types resolve; a refused call leaves
the registry exactly as it was. And what a call has registered is found unchanged after any further
calls. -/
theorem calls_keep_registry (calls : List Call) :
    ((ofCalls calls).classes.toList.map ClassDef.name).Nodup ∧
    (∀ name id, (ofCalls calls).find? name = some id ↔ (ofCalls calls).name? id = some name) ∧
    (∀ id c, (ofCalls calls).class? id = some c →
      (c.methods.map MethodDef.name).Nodup ∧ (c.attributes.map AttributeDef.name).Nodup ∧
        c.methods = (changesOf id (recordOf calls)).filterMap ClassDef.Change.method?) ∧
    (∀ call, ((ofCalls calls).perform call).1 = true ↔ (ofCalls calls).Admits call) ∧
    (∀ call, ((ofCalls calls).perform call).1 = false →
      ((ofCalls calls).perform call).2 = ofCalls calls) ∧
    ∀ call further, ((ofCalls calls).perform call).1 = true →
      (ofCalls calls).Retains call (ofCalls (calls ++ call :: further)) := by
  have hkept := kept_ofCalls calls
  refine ⟨hkept.nodup_names, fun name id => hkept.find?_eq_some_iff, fun id c hc => ?_,
    fun call => perform_eq_true_iff, fun call => perform_of_refused,
    fun call further => retains_of_accepted calls further⟩
  have hholds := hkept.holds hc
  exact ⟨hholds.nodup_methods, hholds.nodup_attributes, hholds.methods_eq⟩

/-- A class of which a second method of the same name has been refused. -/
def stack : Draft where
  name := "Stack"
  line := 1
  origin := .declared 0
  declaredParent := none
  changes := [
    .addMethod ⟨"pop", 2, ⟨0⟩, [], "Int", some .int⟩,
    .addMethod ⟨"pop", 3, ⟨0⟩, [], "Stack", none⟩]

/-- A method with a parameter of its own class. -/
def push : Method := .declared 4 "push" [.declared 4 "other" "Stack"] "void" none

/-- The class is not registered twice, and its method is found after it was refused the second
time. -/
theorem calls_keep_registry_repeated :
    ((ofCalls [.register stack]).class? ⟨0⟩ = some stack.classDef ∧
      (stack.classDef.methods.map MethodDef.name).Nodup) ∧
    (((ofCalls [.register stack]).perform (.register stack)).1 = false ∧
      ((ofCalls [.register stack]).perform (.register stack)).2 = ofCalls [.register stack]) ∧
    ((ofCalls [.register stack]).perform (.declareMethod ⟨0⟩ push)).1 = true ∧
    (ofCalls ([.register stack] ++ .declareMethod ⟨0⟩ push ::
      [.declareMethod ⟨0⟩ push, .register stack])).ownMethod? ⟨0⟩ "push" =
        some (push.known (ofCalls [.register stack]) ⟨0⟩) := by
  have hclass : (ofCalls [.register stack]).class? ⟨0⟩ = some stack.classDef := by decide +kernel
  have hrefused : ((ofCalls [.register stack]).perform (.register stack)).1 = false := by
    decide +kernel
  have haccepted : ((ofCalls [.register stack]).perform (.declareMethod ⟨0⟩ push)).1 = true := by
    decide +kernel
  obtain ⟨-, -, hfeatures, -, hatomic, hretains⟩ := calls_keep_registry [.register stack]
  refine ⟨⟨hclass, (hfeatures ⟨0⟩ _ hclass).1⟩, ⟨hrefused, hatomic _ hrefused⟩, haccepted, ?_⟩
  exact (hretains _ _ haccepted).methods ⟨0⟩ _ List.mem_cons_self

end Registry

end Lcpl
