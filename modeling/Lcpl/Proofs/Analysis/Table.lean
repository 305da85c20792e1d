import Lcpl.Proofs.Analysis.Declarations
import Lcpl.Proofs.Registry.Descent

/-!
# The class table

The phases in front of the bodies build the registry step by step. Seen from the end there are no
steps: a program is well declared or it is not, and if it is, its registry can be written down at
once. The built-in classes come first, and then every class of the program with its parent and its
features.

Names are looked up in the list of all class names, which is complete before the first of them is
looked up. So every phase sees the same names, and it does not matter in which order the classes
are linked and their features registered.

## Main definitions

* `Registry.listing` — the built-in classes, followed by given entries for the classes of a program
* `Program.names`, `Program.table` — the classes of a program without and with their declarations
* `Program.WellDeclared` — what the phases in front of the bodies demand of a program

## Main results

* `Registry.rooted_listing`, `Registry.not_parentOf_string_listing` — the parents in a listing
* `Program.declarations_eq_ok_iff` — the declarations are accepted if and only if the program is
  well declared, and then the registry is the table
* `Program.WellDeclared.rooted` — every class of the table but `Object` has a parent in it
-/

namespace Lcpl

/-! ### Listings -/

/-- A class as it is registered at first, without parent and features. -/
def Class.entry (position : Nat) (c : Class) : ClassDef :=
  .declared c.name c.line (.declared position) c.parent

namespace Registry

variable {entry entry' : Nat → Class → ClassDef} {classes : List Class} {i : Nat} {c : Class}
  {registry : Registry} {id : ClassId} {d d' : ClassDef}

/-- The built-in classes, followed by the given entries for the classes of a program. The index has
the names that stand in the program. -/
def listing (entry : Nat → Class → ClassDef) (classes : List Class) : Registry where
  classes := builtin.classes ++ (classes.mapIdx entry).toArray
  byName := builtin.byName ++ classes.mapIdx fun i c => (c.name, Analysis.classId i)

theorem size_listing : (listing entry classes).size = builtin.size + classes.length := by
  simp [listing, size]

theorem class?_listing_of_lt (h : id.index < builtin.size) :
    (listing entry classes).class? id = builtin.class? id := by
  rw [listing, class?, Array.getElem?_append_left h]
  rfl

theorem class?_listing (i : Nat) :
    (listing entry classes).class? (Analysis.classId i) = classes[i]?.map (entry i) := by
  have hle : builtin.classes.size ≤ builtin.size + i := Nat.le_add_right _ _
  rw [listing, class?, Analysis.classId, Array.getElem?_append_right hle]
  simp [size]

theorem class?_listing_of_getElem? (entry : Nat → Class → ClassDef) (hc : classes[i]? = some c) :
    (listing entry classes).class? (Analysis.classId i) = some (entry i c) := by
  rw [class?_listing, hc, Option.map_some]

/-- A class is built in, or it is the class at some position of the program. -/
theorem exists_classId_of_le (h : builtin.size ≤ id.index) : ∃ i, id = Analysis.classId i := by
  obtain ⟨i, hi⟩ := Nat.exists_eq_add_of_le h
  exact ⟨i, congrArg ClassId.mk hi⟩

theorem listing_congr (h : ∀ i c, classes[i]? = some c → entry i c = entry' i c) :
    listing entry classes = listing entry' classes := by
  have hentries : classes.mapIdx entry = classes.mapIdx entry' := by
    refine List.ext_getElem? fun i => ?_
    rw [List.getElem?_mapIdx, List.getElem?_mapIdx]
    cases hc : classes[i]? with
    | none => rfl
    | some c => rw [Option.map_some, Option.map_some, h i c hc]
  rw [listing, listing, hentries]

/-- Replacing the entry of one class leaves a listing in which only this entry differs. -/
theorem set_listing (hc : classes[i]? = some c) (hnew : entry' i c = d)
    (hkept : ∀ j c, j ≠ i → entry' j c = entry j c) :
    (listing entry classes).set (Analysis.classId i) d = listing entry' classes := by
  have hlt : i < classes.length := (List.getElem?_eq_some_iff.mp hc).1
  have hentries : (classes.mapIdx entry).set i d = classes.mapIdx entry' := by
    refine List.ext_getElem? fun j => ?_
    by_cases hij : j = i
    · subst hij
      rw [List.getElem?_set_self (by simpa using hlt), List.getElem?_mapIdx, hc, Option.map_some,
        hnew]
    · rw [List.getElem?_set_ne (Ne.symm hij), List.getElem?_mapIdx, List.getElem?_mapIdx]
      congr 1
      funext c
      exact (hkept j c hij).symm
  have hle : builtin.classes.size ≤ builtin.size + i := Nat.le_add_right _ _
  rw [listing, listing, set, ← hentries, Analysis.classId]
  congr 1
  rw [Array.setIfInBounds_append_right hle]
  simp [size]

/-- What a name stands for does not depend on what is known of the classes. -/
theorem find?_listing (entry : Nat → Class → ClassDef) (classes : List Class) (name : String) :
    (listing entry classes).find? name = (listing Class.entry classes).find? name := rfl

/-- The index is in step with entries that keep their names. -/
theorem indexed_listing (hname : ∀ i c, (entry i c).name = c.name) :
    (listing entry classes).Indexed := by
  intro name id hentry
  rcases List.mem_append.mp hentry with hentry | hentry
  · obtain ⟨d, hd, rfl⟩ := indexed_builtin hentry
    exact ⟨d, (class?_listing_of_lt (lt_size_of_class? hd)).trans hd, rfl⟩
  · obtain ⟨i, hi⟩ := List.mem_iff_getElem?.mp hentry
    rw [List.getElem?_mapIdx, Option.map_eq_some_iff] at hi
    obtain ⟨c, hc, hpair⟩ := hi
    obtain ⟨rfl, rfl⟩ := Prod.mk.inj hpair
    exact ⟨entry i c, class?_listing_of_getElem? entry hc, hname i c⟩

/-! ### One class after another -/

theorem set_set (registry : Registry) (id : ClassId) (d d' : ClassDef) :
    (registry.set id d).set id d' = registry.set id d' := by
  simp [set]

theorem class?_set_self (hd : registry.class? id = some d) (d' : ClassDef) :
    (registry.set id d').class? id = some d' := by
  rw [class?_set, if_pos ⟨rfl, lt_size_of_class? hd⟩]

end Registry

/-! ### What is known of a class -/

section Known

variable (names : Registry)

/-- A parameter as it is registered, if its type resolves. -/
def Param.known? (param : Param) : Option ParamDef :=
  (names.resolve? param.typeName).map (⟨param.name, param.typeName, ·⟩)

/-- A method as it is registered. -/
def Method.known (owner : ClassId) (m : Method) : MethodDef :=
  m.registered names owner (m.params.filterMap (Param.known? names))

/-- An attribute as it is registered, if its type resolves. -/
def Attribute.known? (owner : ClassId) (a : Attribute) : Option AttributeDef :=
  (names.resolve? a.typeName).map (⟨a.name, owner, a.typeName, ·⟩)

/-- The parent of a class: without a declared one, `Object`. -/
def Class.parentId? (c : Class) : Option ClassId :=
  match c.parent with
  | none => some .object
  | some name => names.find? name

/-- A class as it is registered once its parent is resolved. -/
def Class.linked (position : Nat) (c : Class) : ClassDef :=
  { c.entry position with parent := c.parentId? names }

/-- A class as it is registered with all its features. -/
def Class.known (position : Nat) (c : Class) : ClassDef :=
  { c.linked names position with
    methods := c.methods.map (Method.known names (Analysis.classId position))
    attributes := c.attributes.filterMap (Attribute.known? names (Analysis.classId position)) }

/-- The parent of a class is registered, and is not `String`. -/
def Class.WellLinked (c : Class) : Prop :=
  ∃ parent, c.parentId? names = some parent ∧ parent ≠ .string

/-- The features of one kind have different names, and the types in the declarations resolve. Return
types need not. -/
structure Class.WellSigned (c : Class) : Prop where
  methods : (c.methods.map Method.name).Nodup
  params : ∀ m ∈ c.methods, ∀ param ∈ m.params, (names.resolve? param.typeName).isSome
  attributes : (c.attributes.map Attribute.name).Nodup
  types : ∀ a ∈ c.attributes, (names.resolve? a.typeName).isSome

end Known

/-- The classes of a program by name, behind the built-in ones. -/
def Program.names (p : Program) : Registry := .listing Class.entry p.classes

/-- The classes of a program with everything that is declared in them. -/
def Program.table (p : Program) : Registry := .listing (Class.known p.names) p.classes

/-- What the phases in front of the bodies demand of a program. -/
structure Program.WellDeclared (p : Program) : Prop where
  fresh : ∀ c ∈ p.classes, Registry.builtin.find? c.name = none
  nodup : (p.classes.map Class.name).Nodup
  linked : ∀ c ∈ p.classes, c.WellLinked p.names
  signed : ∀ c ∈ p.classes, c.WellSigned p.names

/-! ### Registration -/

namespace Hierarchy

variable {classes : List Class} {log : Array Event} {s : Resolving}

/-- Classes are registered if and only if their names are new and different, and then they stand
behind the others in order. -/
theorem runFrom_registerFrom_eq_ok_iff {k : Nat} {registry : Registry} :
    (registerFrom k classes).runFrom ⟨registry, log⟩ = (.ok (), s) ↔
      (∀ c ∈ classes, registry.find? c.name = none) ∧ (classes.map Class.name).Nodup ∧
        s = ⟨⟨registry.classes ++ (classes.mapIdx fun i => Class.entry (k + i)).toArray,
          registry.byName ++ classes.mapIdx fun i c => (c.name, ⟨registry.size + i⟩)⟩, log⟩ := by
  induction classes generalizing k registry with
  | nil => simp [registerFrom, eq_comm]
  | cons c classes ih =>
    cases hadd : registry.add? (c.entry k) with
    | none =>
      have htaken : registry.find? c.name ≠ none :=
        Option.isSome_iff_ne_none.mp (Registry.add?_eq_none_iff.mp hadd)
      rw [runFrom_registerFrom_of_none (s := ⟨registry, log⟩) (c := c) hadd]
      simp [htaken]
    | some after =>
      -- behind this class, a name is new if it was new and is not the name of the class
      have hfind (name : String) :
          after.find? name = none ↔ registry.find? name = none ∧ c.name ≠ name := by
        rw [Registry.find?_of_add? hadd, Option.or_eq_none_iff,
          show (c.entry k).name = c.name from rfl, ite_eq_right_iff]
        simp
      rw [runFrom_registerFrom_of_some (s := ⟨registry, log⟩) (c := c) hadd]
      obtain ⟨hnew, hafter⟩ := Registry.add?_eq_some_iff.mp hadd
      have hnew : registry.find? c.name = none := hnew
      rw [ih]
      simp only [hfind, List.forall_mem_cons, hnew, true_and, List.map_cons, List.nodup_cons,
        List.mem_map, not_exists, not_and, List.mapIdx_cons]
      have hclasses : after.classes ++ (classes.mapIdx fun i => Class.entry (k + 1 + i)).toArray =
          registry.classes ++
            (c.entry (k + 0) :: classes.mapIdx fun i => Class.entry (k + (i + 1))).toArray := by
        simp [hafter, Nat.add_assoc, Nat.add_comm 1]
      have hindex : after.byName ++ (classes.mapIdx fun i c => (c.name, ⟨after.size + i⟩)) =
          registry.byName ++ ((c.name, ⟨registry.size + 0⟩) ::
            classes.mapIdx fun i c => (c.name, ⟨registry.size + (i + 1)⟩)) := by
        rw [Registry.size_of_add? hadd, hafter]
        simp [Nat.add_assoc, Nat.add_comm 1, Registry.next, Class.entry, ClassDef.declared]
      rw [hclasses, hindex]
      constructor
      · rintro ⟨hall, hnodup, rfl⟩
        exact ⟨fun c' hc' => (hall c' hc').1,
          ⟨fun c' hc' hsame => (hall c' hc').2 hsame.symm, hnodup⟩, rfl⟩
      · rintro ⟨hall, ⟨hdifferent, hnodup⟩, rfl⟩
        exact ⟨fun c' hc' => ⟨hall c' hc', fun hsame => hdifferent c' hc' hsame.symm⟩, hnodup, rfl⟩

/-! ### Parents -/

/-- The classes of the program are those behind the built-in ones. -/
theorem declared_listing :
    (Registry.listing Class.entry classes).declared =
      (List.range classes.length).map fun i => (Analysis.classId i, i) := by
  rw [Registry.declared, Registry.ids, Registry.size_listing, List.range_add, List.filterMap_map,
    List.filterMap_append, List.filterMap_map, ← List.filterMap_eq_map]
  refine (congrArg₂ (· ++ ·) (List.filterMap_eq_nil_iff.mpr fun i hi => ?_)
    (List.filterMap_congr fun i hi => ?_)).trans (List.nil_append _)
  · -- built-in classes have no declaration
    simp only [Function.comp_apply]
    rw [Registry.class?_listing_of_lt (List.mem_range.mp hi)]
    cases hd : Registry.builtin.class? ⟨i⟩ with
    | none => rfl
    | some d =>
      rcases Registry.class?_builtin hd with ⟨-, rfl⟩ | ⟨-, rfl⟩ | ⟨-, rfl⟩ <;> rfl
  · have hlt : i < classes.length := List.mem_range.mp hi
    have hc : classes[i]? = some classes[i] := List.getElem?_eq_getElem hlt
    have hentry := Registry.class?_listing_of_getElem? Class.entry hc
    simp only [Function.comp_apply]
    rw [show (⟨Registry.builtin.size + i⟩ : ClassId) = Analysis.classId i from rfl, hentry]
    rfl

variable {entry : Nat → Class → ClassDef} {i : Nat} {c : Class} {names : Registry}

/-- A class is linked if and only if it is well linked. -/
theorem runFrom_linkParent_eq_ok_iff (hparent : (entry i c).declaredParent = c.parent)
    (hc : classes[i]? = some c) :
    (linkParent (Analysis.classId i)).runFrom ⟨.listing entry classes, log⟩ = (.ok (), s) ↔
      c.WellLinked (.listing Class.entry classes) ∧
        s = ⟨(Registry.listing entry classes).set (Analysis.classId i)
          { entry i c with parent := c.parentId? (.listing Class.entry classes) }, log⟩ := by
  have hentry := Registry.class?_listing_of_getElem? entry hc
  have hdeclared : declaredParent (.listing entry classes) (entry i c) =
      (c.parentId? (.listing Class.entry classes)).elim
        (.error (.rejected ⟨(entry i c).line, .classNotFound (c.parent.getD "")⟩))
        fun parent =>
          if parent = .string then .error (.rejected ⟨(entry i c).line, .cannotInheritString⟩)
          else .ok parent := by
    rw [declaredParent, hparent, Class.parentId?]
    cases c.parent with
    | none => rfl
    | some name =>
      simp only [Registry.find?_listing entry]
      cases (Registry.listing Class.entry classes).find? name with
      | none => rfl
      | some parent => rfl
  rw [Class.WellLinked]
  cases hfound : c.parentId? (.listing Class.entry classes) with
  | none =>
    rw [hfound] at hdeclared
    rw [runFrom_linkParent_of_error (s := ⟨.listing entry classes, log⟩) hentry hdeclared]
    simp
  | some parent =>
    rw [hfound] at hdeclared
    -- a class that is found may still be the one that nothing inherits from
    by_cases hstring : parent = .string
    · rw [runFrom_linkParent_of_error (s := ⟨.listing entry classes, log⟩) hentry
        (hdeclared.trans (if_pos hstring))]
      simp [hstring]
    · rw [runFrom_linkParent_of_ok (s := ⟨.listing entry classes, log⟩) hentry
        (hdeclared.trans (if_neg hstring))]
      simp [hstring, eq_comm]

/-- The listing while the classes are being linked: those in front of `k` are. -/
def linking (names : Registry) (k i : Nat) (c : Class) : ClassDef :=
  if i < k then c.linked names i else c.entry i

/-- Linking the class at `k` leads from one listing to the next. -/
theorem set_linking {k : Nat} (names : Registry) (hc : classes[k]? = some c) :
    (Registry.listing (linking names k) classes).set (Analysis.classId k)
      { linking names k k c with parent := c.parentId? names } =
        .listing (linking names (k + 1)) classes := by
  refine Registry.set_listing hc ?_ fun j c hj => ?_
  · simp [linking, Class.linked]
  · have : j < k + 1 ↔ j < k := by omega
    simp only [linking, this]

/-- The induction is on the classes from `k` on. Those in front are linked already, which is what
the listing says. -/
theorem runFrom_forM_linkParent_eq_ok_iff {n k : Nat} (hlength : k + n = classes.length)
    (hnames : names = .listing Class.entry classes) :
    (((List.range' k n).map fun i => (Analysis.classId i, i)).forM fun (id, _) =>
        linkParent id).runFrom ⟨.listing (linking names k) classes, log⟩ = (.ok (), s) ↔
      (∀ i c, k ≤ i → classes[i]? = some c → c.WellLinked names) ∧
        s = ⟨.listing (Class.linked names) classes, log⟩ := by
  induction n generalizing k with
  | zero =>
    have hall : Registry.listing (linking names k) classes =
        .listing (Class.linked names) classes := by
      refine Registry.listing_congr fun i c hc => ?_
      have hlt : i < classes.length := (List.getElem?_eq_some_iff.mp hc).1
      exact if_pos (by omega)
    rw [hall]
    constructor
    · intro h
      refine ⟨fun i c hle hc => ?_, by simpa [eq_comm] using h⟩
      have hlt : i < classes.length := (List.getElem?_eq_some_iff.mp hc).1
      omega
    · rintro ⟨-, rfl⟩
      rfl
  | succ n ih =>
    have hlt : k < classes.length := by omega
    have hc : classes[k]? = some classes[k] := List.getElem?_eq_getElem hlt
    -- one step links the class at `k`, and with it the listing is that of `k + 1`
    have hstep (t : Resolving) : (linkParent (Analysis.classId k)).runFrom
        ⟨.listing (linking names k) classes, log⟩ = (.ok (), t) ↔
          classes[k].WellLinked names ∧ t = ⟨.listing (linking names (k + 1)) classes, log⟩ := by
      rw [runFrom_linkParent_eq_ok_iff (by simp [linking, Class.entry, ClassDef.declared]) hc,
        ← hnames, set_linking names hc]
    rw [List.range'_succ, List.map_cons, List.forM_eq_forM, List.forM_cons,
      Step.runFrom_bind_eq_ok]
    constructor
    · rintro ⟨⟨⟩, t, hfirst, hrest⟩
      obtain ⟨hlinked, rfl⟩ := (hstep t).mp hfirst
      obtain ⟨hall, rfl⟩ := (ih (by omega)).mp hrest
      refine ⟨fun i c hle hi => ?_, rfl⟩
      rcases Nat.eq_or_lt_of_le hle with rfl | hlt
      · obtain rfl := Option.some_inj.mp (hc.symm.trans hi)
        exact hlinked
      · exact hall i c hlt hi
    · rintro ⟨hall, rfl⟩
      exact ⟨(), _, (hstep _).mpr ⟨hall k _ (Nat.le_refl k) hc, rfl⟩,
        (ih (by omega)).mpr ⟨fun i c hle hi => hall i c (by omega) hi, rfl⟩⟩

theorem runFrom_register_eq_ok_iff (log : Array Event) (s : Resolving) :
    (register classes).runFrom ⟨.builtin, log⟩ = (.ok (), s) ↔
      (∀ c ∈ classes, Registry.builtin.find? c.name = none) ∧ (classes.map Class.name).Nodup ∧
        s = ⟨.listing Class.entry classes, log.push (.classesRegistered classes.length)⟩ := by
  have hall (t : Resolving) : (registerFrom 0 classes).runFrom ⟨.builtin, log⟩ = (.ok (), t) ↔
      (∀ c ∈ classes, Registry.builtin.find? c.name = none) ∧ (classes.map Class.name).Nodup ∧
        t = ⟨.listing Class.entry classes, log⟩ := by
    rw [runFrom_registerFrom_eq_ok_iff]
    simp only [Nat.zero_add]
    rfl
  rw [register, Step.runFrom_bind_eq_ok]
  constructor
  · rintro ⟨⟨⟩, t, hclasses, hemit⟩
    obtain ⟨hfresh, hnodup, rfl⟩ := (hall t).mp hclasses
    obtain rfl := by simpa [Resolving.emit] using hemit
    exact ⟨hfresh, hnodup, rfl⟩
  · rintro ⟨hfresh, hnodup, rfl⟩
    exact ⟨(), _, (hall _).mpr ⟨hfresh, hnodup, rfl⟩, rfl⟩

theorem runFrom_linkParents_eq_ok_iff (log : Array Event) (s : Resolving)
    (hnames : names = .listing Class.entry classes) :
    linkParents.runFrom ⟨names, log⟩ = (.ok (), s) ↔
      (∀ c ∈ classes, c.WellLinked names) ∧ s = ⟨.listing (Class.linked names) classes, log⟩ := by
  have hstart : names = .listing (linking names 0) classes :=
    hnames.trans (Registry.listing_congr fun i c _ => (if_neg (Nat.not_lt_zero i)).symm)
  have hall : (∀ i c, 0 ≤ i → classes[i]? = some c → c.WellLinked names) ↔
      ∀ c ∈ classes, c.WellLinked names := by
    simp only [List.mem_iff_getElem?, Nat.zero_le, true_imp_iff]
    refine ⟨fun h c hc => ?_, fun h i c hi => h c ⟨i, hi⟩⟩
    obtain ⟨i, hi⟩ := hc
    exact h i c hi
  have hdeclared : names.declared =
      (List.range' 0 classes.length).map fun i => (Analysis.classId i, i) := by
    rw [hnames, declared_listing, List.range_eq_range']
  rw [linkParents, Step.runFrom_bind_of_ok (Step.runFrom_get _)]
  simp only [hdeclared]
  rw [← hall, ← runFrom_forM_linkParent_eq_ok_iff (Nat.zero_add _) hnames, ← hstart]

/-- The hierarchy is built if and only if the names of the classes are new and different and every
class is well linked, and then every class is registered with its parent. -/
theorem runFrom_build_eq_ok_iff (log : Array Event) (s : Resolving)
    (hnames : names = .listing Class.entry classes) :
    (build classes).runFrom ⟨.builtin, log⟩ = (.ok (), s) ↔
      ((∀ c ∈ classes, Registry.builtin.find? c.name = none) ∧ (classes.map Class.name).Nodup ∧
        ∀ c ∈ classes, c.WellLinked names) ∧
      s = ⟨.listing (Class.linked names) classes,
        log.push (.classesRegistered classes.length)⟩ := by
  rw [build, Step.runFrom_bind_eq_ok]
  constructor
  · rintro ⟨⟨⟩, t, hfirst, hrest⟩
    obtain ⟨hfresh, hnodup, rfl⟩ := (runFrom_register_eq_ok_iff log t).mp hfirst
    rw [← hnames] at hrest
    obtain ⟨hlinked, rfl⟩ := (runFrom_linkParents_eq_ok_iff _ s hnames).mp hrest
    exact ⟨⟨hfresh, hnodup, hlinked⟩, rfl⟩
  · rintro ⟨⟨hfresh, hnodup, hlinked⟩, rfl⟩
    refine ⟨(), _, (runFrom_register_eq_ok_iff log _).mpr ⟨hfresh, hnodup, rfl⟩, ?_⟩
    rw [← hnames]
    exact (runFrom_linkParents_eq_ok_iff _ _ hnames).mpr ⟨hlinked, rfl⟩

end Hierarchy

/-! ### The hierarchy of a listing -/

namespace Registry

variable {entry : Nat → Class → ClassDef} {classes : List Class} {id parent : ClassId} {i : Nat}
  {c : Class}

theorem parentOf_listing_iff
    (hentry : ∀ i c, (entry i c).parent = c.parentId? (.listing Class.entry classes))
    (hc : classes[i]? = some c) :
    (listing entry classes).ParentOf (Analysis.classId i) parent ↔
      c.parentId? (.listing Class.entry classes) = some parent := by
  rw [ParentOf, parent?, class?_listing_of_getElem? entry hc, Option.bind_some, hentry]

/-- `Object` has no parent. -/
theorem parent?_listing_object : (listing entry classes).parent? .object = none := by
  rw [parent?, class?_listing_of_lt (by decide)]
  rfl

/-- The other built-in classes inherit from `Object` by themselves. -/
theorem parentOf_listing_of_lt (h : id.index < builtin.size) (hid : id ≠ .object) :
    (listing entry classes).ParentOf id .object := by
  obtain ⟨d, hd⟩ := exists_class?_of_lt h
  rw [ParentOf, parent?, class?_listing_of_lt h, hd]
  rcases class?_builtin hd with ⟨rfl, -⟩ | ⟨-, rfl⟩ | ⟨-, rfl⟩
  · exact absurd rfl hid
  · rfl
  · rfl

theorem exists_getElem?_of_lt_size (h : (Analysis.classId i).index < (listing entry classes).size) :
    ∃ c, classes[i]? = some c := by
  rw [size_listing] at h
  exact ⟨_, List.getElem?_eq_getElem (Nat.lt_of_add_lt_add_left h)⟩

/-- The parent of a class is listed. -/
theorem lt_size_listing_of_parentId?
    (h : c.parentId? (.listing Class.entry classes) = some parent) :
    parent.index < (listing entry classes).size := by
  rw [size_listing]
  unfold Class.parentId? at h
  split at h
  · obtain rfl := Option.some_inj.mp h
    exact Nat.lt_add_right _ (by decide)
  · obtain ⟨d, hd, -⟩ := (indexed_listing fun _ _ => rfl).exists_class? h
    have hlt := lt_size_of_class? hd
    rwa [size_listing] at hlt

/-- If the classes of a program are well linked, every class but `Object` is listed with its
parent. -/
theorem rooted_listing
    (hentry : ∀ i c, (entry i c).parent = c.parentId? (.listing Class.entry classes))
    (hlinked : ∀ c ∈ classes, c.WellLinked (.listing Class.entry classes)) :
    (listing entry classes).Rooted := by
  intro id hlt hid
  by_cases hbuiltin : id.index < builtin.size
  · refine ⟨.object, parentOf_listing_of_lt hbuiltin hid, ?_⟩
    rw [size_listing]
    exact Nat.lt_add_right _ (by decide)
  · obtain ⟨i, rfl⟩ := exists_classId_of_le (Nat.le_of_not_lt hbuiltin)
    obtain ⟨c, hc⟩ := exists_getElem?_of_lt_size hlt
    obtain ⟨parent, hparent, -⟩ := hlinked c (List.mem_of_getElem? hc)
    exact ⟨parent, (parentOf_listing_iff hentry hc).mpr hparent,
      lt_size_listing_of_parentId? hparent⟩

/-- If the classes of a program are well linked, nothing inherits from `String`. -/
theorem not_parentOf_string_listing
    (hentry : ∀ i c, (entry i c).parent = c.parentId? (.listing Class.entry classes))
    (hlinked : ∀ c ∈ classes, c.WellLinked (.listing Class.entry classes)) (id : ClassId) :
    ¬ (listing entry classes).ParentOf id .string := by
  intro h
  by_cases hbuiltin : id.index < builtin.size
  · by_cases hid : id = .object
    · rw [ParentOf, hid, parent?_listing_object] at h
      cases h
    · exact absurd (h.eq (parentOf_listing_of_lt hbuiltin hid)) (by decide)
  · obtain ⟨i, rfl⟩ := exists_classId_of_le (Nat.le_of_not_lt hbuiltin)
    obtain ⟨c, hc⟩ := exists_getElem?_of_lt_size h.lt_size
    obtain ⟨parent, hparent, hne⟩ := hlinked c (List.mem_of_getElem? hc)
    have hstring := (parentOf_listing_iff hentry hc).mp h
    exact hne (Option.some_inj.mp (hparent.symm.trans hstring))

end Registry

/-! ### Signatures -/

namespace Registry

variable {registry names : Registry}

theorem resolve?_congr (h : ∀ name, registry.find? name = names.find? name) (name : String) :
    registry.resolve? name = names.resolve? name := by
  rw [resolve?, resolve?, h]

/-- The types of parameters are resolved if and only if each of them does. -/
theorem resolveParams_eq_ok_iff (h : ∀ name, registry.find? name = names.find? name)
    (params : List Param) (defs : List ParamDef) :
    (registry.resolveParams params).1 = .ok defs ↔
      (∀ param ∈ params, (names.resolve? param.typeName).isSome) ∧
        defs = params.filterMap (Param.known? names) := by
  induction params generalizing defs with
  | nil =>
    constructor
    · rintro ⟨⟩
      exact ⟨by simp, rfl⟩
    · rintro ⟨-, rfl⟩
      rfl
  | cons param params ih =>
    have hresolve := resolve?_congr h param.typeName
    cases htype : names.resolve? param.typeName with
    | none => simp [resolveParams, resolveDeclared, hresolve, htype]
    | some ty =>
      have hknown : param.known? names = some ⟨param.name, param.typeName, ty⟩ := by
        rw [Param.known?, htype, Option.map_some]
      simp only [resolveParams, resolveDeclared, hresolve, htype, List.forall_mem_cons,
        Option.isSome_some, true_and, List.filterMap_cons_some hknown]
      -- the types in front are resolved, so all depends on the rest
      cases hrest : (registry.resolveParams params).1 with
      | error failure =>
        have hnot : ¬ ∀ param ∈ params, (names.resolve? param.typeName).isSome := by
          intro hall
          have hok := (ih _).mpr ⟨hall, rfl⟩
          rw [hrest] at hok
          cases hok
        simp [Except.map, hnot]
      | ok rest =>
        obtain ⟨hall, rfl⟩ := (ih _).mp hrest
        simp only [Except.map, Except.ok.injEq]
        constructor
        · rintro rfl
          exact ⟨hall, rfl⟩
        · rintro ⟨-, rfl⟩
          rfl

end Registry

namespace Signature

variable {registry names : Registry} {log : Array Event} {id : ClassId} {d : ClassDef}

theorem known_eq_registered (h : ∀ name, registry.find? name = names.find? name) (m : Method) :
    m.registered registry id (m.params.filterMap (Param.known? names)) = m.known names id := by
  rw [Method.known, Method.registered, Method.registered, Registry.resolveReturn?,
    Registry.resolveReturn?, Registry.resolve?_congr h]

/-- A method is registered if and only if its name is new and the types of its parameters
resolve. -/
theorem declareMethod_eq_ok_iff (log : Array Event) (hd : registry.class? id = some d)
    (h : ∀ name, registry.find? name = names.find? name) (m : Method) :
    (((declareMethod id).runFrom (⟨registry, log⟩, m)).1 = .ok () ↔
      d.method? m.name = none ∧
        ∀ param ∈ m.params, (names.resolve? param.typeName).isSome) ∧
    (((declareMethod id).runFrom (⟨registry, log⟩, m)).1 = .ok () →
      ((declareMethod id).runFrom (⟨registry, log⟩, m)).2.1.registry =
        registry.set id { d with methods := d.methods ++ [m.known names id] }) := by
  obtain ⟨log', hrun⟩ := runFrom_declareMethod id registry log m
  have hparams := Registry.resolveParams_eq_ok_iff h m.params
  rw [hrun, hd]
  by_cases htaken : (d.method? m.name).isSome
  · have hsome : d.method? m.name ≠ none := Option.isSome_iff_ne_none.mp htaken
    simp [htaken, hsome]
  · have hnone : d.method? m.name = none := by simpa using htaken
    simp only [hnone, Option.isSome_none, Bool.false_eq_true, if_false, true_and]
    rcases hresolve : registry.resolveParams m.params with ⟨failure | defs, params⟩
    · simp only [hresolve, reduceCtorEq, false_iff, false_implies, and_true] at hparams ⊢
      intro hall
      exact hparams _ ⟨hall, rfl⟩
    · obtain ⟨hall, rfl⟩ := (hparams defs).mp (by rw [hresolve])
      simp only [true_iff, forall_const]
      exact ⟨hall, by rw [known_eq_registered h]⟩

/-- An attribute is registered if and only if its type resolves and its name is new. -/
theorem declareAttribute_eq_ok_iff (log : Array Event) (hd : registry.class? id = some d)
    (h : ∀ name, registry.find? name = names.find? name) (a : Attribute) :
    (((declareAttribute id).runFrom (⟨registry, log⟩, a)).1 = .ok () ↔
      d.attribute? a.name = none ∧ (names.resolve? a.typeName).isSome) ∧
    (((declareAttribute id).runFrom (⟨registry, log⟩, a)).1 = .ok () →
      ((declareAttribute id).runFrom (⟨registry, log⟩, a)).2.1.registry =
        registry.set id
          { d with attributes := d.attributes ++ (a.known? names id).toList }) := by
  rw [runFrom_declareAttribute, Registry.resolve?_congr h, hd, Attribute.known?]
  cases names.resolve? a.typeName with
  | none => simp
  | some ty =>
    by_cases htaken : (d.attribute? a.name).isSome
    · have hsome : d.attribute? a.name ≠ none := Option.isSome_iff_ne_none.mp htaken
      simp [htaken, hsome]
    · have hnone : d.attribute? a.name = none := by simpa using htaken
      simp [hnone]

/-- A step on features that registers those of one kind in the class `id`. It demands that the name
is not taken and that the declaration is fine. -/
structure Registers {β : Type} (names : Registry) (id : ClassId)
    (step : Step (Resolving × Feature) Unit) (item? : Feature → Option β) (name : β → String)
    (taken : ClassDef → String → Prop) (fine : β → Prop) (add : ClassDef → β → ClassDef) :
    Prop where
  skip : ∀ {s f}, item? f = none → step.runFrom (s, f) = (.ok (), s, f)
  item : ∀ {registry d f x} log, item? f = some x → registry.class? id = some d →
    (∀ name, registry.find? name = names.find? name) →
      ((step.runFrom (⟨registry, log⟩, f)).1 = .ok () ↔ ¬ taken d (name x) ∧ fine x) ∧
      ((step.runFrom (⟨registry, log⟩, f)).1 = .ok () →
        (step.runFrom (⟨registry, log⟩, f)).2.1.registry = registry.set id (add d x))
  taken_add : ∀ {d x n}, fine x → (taken (add d x) n ↔ taken d n ∨ name x = n)

/-- A pass over the features registers all of its kind, if and only if their names are new and
different and every declaration is fine. -/
theorem Registers.eachFrom {β : Type} {step : Step (Resolving × Feature) Unit}
    {item? : Feature → Option β} {name : β → String} {taken : ClassDef → String → Prop}
    {fine : β → Prop} {add : ClassDef → β → ClassDef}
    (hstep : Registers names id step item? name taken fine add) (features : List Feature)
    (k : Nat) (log : Array Event) (hd : registry.class? id = some d)
    (hnames : ∀ name, registry.find? name = names.find? name) :
    ((Step.eachFrom (fun _ => step) k features ⟨registry, log⟩).1 = .ok () ↔
      ((features.filterMap item?).map name).Nodup ∧
        ∀ x ∈ features.filterMap item?, ¬ taken d (name x) ∧ fine x) ∧
    ((Step.eachFrom (fun _ => step) k features ⟨registry, log⟩).1 = .ok () →
      (Step.eachFrom (fun _ => step) k features ⟨registry, log⟩).2.1.registry =
        registry.set id ((features.filterMap item?).foldl add d)) := by
  induction features generalizing k registry log d with
  | nil => simp [Step.eachFrom, Registry.set_of_class? hd]
  | cons f features ih =>
    cases hf : item? f with
    | none =>
      rw [Step.eachFrom_cons_of_ok (hstep.skip hf), List.filterMap_cons_none hf]
      exact ih (k + 1) log hd hnames
    | some x =>
      obtain ⟨hok, hadded⟩ := hstep.item log hf hd hnames
      rw [List.filterMap_cons_some hf]
      rcases hrun : step.runFrom (⟨registry, log⟩, f) with ⟨failure | ⟨⟩, ⟨after, log'⟩, f'⟩
      · have hnot : ¬ (¬ taken d (name x) ∧ fine x) := by
          rw [← hok, hrun]
          simp
        rw [Step.eachFrom_cons_of_error hrun]
        simp [hnot]
      · rw [hrun] at hok hadded
        obtain ⟨hnew, hfine⟩ := hok.mp rfl
        obtain rfl : after = registry.set id (add d x) := hadded rfl
        obtain ⟨hrest, hregistry⟩ := ih (k + 1) log'
          (Registry.class?_set_self hd (add d x)) hnames
        rw [Step.eachFrom_cons_of_ok hrun]
        refine ⟨hrest.trans ?_, fun h => ?_⟩
        · -- a later name must not be taken, neither before nor by this feature
          simp only [hstep.taken_add hfine, not_or, List.forall_mem_cons, hnew, hfine,
            not_false_eq_true, true_and, List.map_cons, List.nodup_cons, List.mem_map, not_exists,
            not_and]
          constructor
          · rintro ⟨hnodup, hall⟩
            exact ⟨⟨fun y hy hsame => (hall y hy).1.2 hsame.symm, hnodup⟩,
              fun y hy => ⟨(hall y hy).1.1, (hall y hy).2⟩⟩
          · rintro ⟨⟨hdifferent, hnodup⟩, hall⟩
            exact ⟨hnodup, fun y hy =>
              ⟨⟨(hall y hy).1, fun hsame => hdifferent y hy hsame.symm⟩, (hall y hy).2⟩⟩
        · rw [hregistry h, Registry.set_set, List.foldl_cons]

/-- A class with one more method. -/
def withMethod (names : Registry) (id : ClassId) (d : ClassDef) (m : Method) : ClassDef :=
  { d with methods := d.methods ++ [m.known names id] }

/-- A class with one more attribute. -/
def withAttribute (names : Registry) (id : ClassId) (d : ClassDef) (a : Attribute) : ClassDef :=
  { d with attributes := d.attributes ++ (a.known? names id).toList }

theorem foldl_withMethod (methods : List Method) :
    methods.foldl (withMethod names id) d =
      { d with methods := d.methods ++ methods.map (Method.known names id) } := by
  induction methods generalizing d with
  | nil => simp
  | cons m methods ih => simp [ih, withMethod]

theorem foldl_withAttribute (attributes : List Attribute) :
    attributes.foldl (withAttribute names id) d =
      { d with attributes :=
        d.attributes ++ attributes.filterMap (Attribute.known? names id) } := by
  induction attributes generalizing d with
  | nil => simp
  | cons a attributes ih =>
    rw [List.foldl_cons, ih]
    cases ha : a.known? names id <;> simp [withAttribute, ha]

theorem registers_methods (names : Registry) (id : ClassId) :
    Registers names id (Feature.onMethod (declareMethod id)) Feature.method? Method.name
      (fun d name => d.method? name ≠ none)
      (fun m => ∀ param ∈ m.params, (names.resolve? param.typeName).isSome)
      (withMethod names id) where
  skip {s f} hf := by
    rcases f with m | a
    · cases hf
    · rfl
  item {registry d f m} log hf hd hnames := by
    rcases f with m' | a
    · obtain rfl : m' = m := Option.some_inj.mp hf
      rw [Feature.runFrom_onMethod, not_ne_iff]
      exact declareMethod_eq_ok_iff log hd hnames m'
    · cases hf
  taken_add {d m n} _ := by
    simp only [withMethod, ClassDef.method?, List.find?_append, ne_eq, Option.or_eq_none_iff,
      not_and_or]
    simp [Method.known, Method.registered]

theorem registers_attributes (names : Registry) (id : ClassId) :
    Registers names id (Feature.onAttribute (declareAttribute id)) Feature.attribute? Attribute.name
      (fun d name => d.attribute? name ≠ none)
      (fun a => (names.resolve? a.typeName).isSome) (withAttribute names id) where
  skip {s f} hf := by
    rcases f with m | a
    · rfl
    · cases hf
  item {registry d f a} log hf hd hnames := by
    rcases f with m | a'
    · cases hf
    · obtain rfl : a' = a := Option.some_inj.mp hf
      rw [Feature.runFrom_onAttribute, not_ne_iff]
      exact declareAttribute_eq_ok_iff log hd hnames a'
  taken_add {d a n} hfine := by
    obtain ⟨ty, hty⟩ := Option.isSome_iff_exists.mp hfine
    simp only [withAttribute, Attribute.known?, hty, ClassDef.attribute?, List.find?_append, ne_eq,
      Option.or_eq_none_iff, not_and_or]
    simp

/-- The features of a class are registered if and only if it is well signed. -/
theorem declareClass_eq_ok_iff (log : Array Event) {c : Class} (hd : registry.class? id = some d)
    (hnames : ∀ name, registry.find? name = names.find? name) (hmethods : d.methods = [])
    (hattributes : d.attributes = []) :
    (((declareClass id).runFrom (⟨registry, log⟩, c)).1 = .ok () ↔ c.WellSigned names) ∧
    (((declareClass id).runFrom (⟨registry, log⟩, c)).1 = .ok () →
      ((declareClass id).runFrom (⟨registry, log⟩, c)).2.1.registry = registry.set id
        { d with
          methods := c.methods.map (Method.known names id)
          attributes := c.attributes.filterMap (Attribute.known? names id) }) := by
  let d₁ : ClassDef := { d with methods := c.methods.map (Method.known names id) }
  have hfirst := (registers_methods names id).eachFrom c.features 0 log hd hnames
  rw [foldl_withMethod] at hfirst
  have hfree (m : Method) : d.method? m.name = none := by simp [ClassDef.method?, hmethods]
  have hfree₁ (a : Attribute) : d₁.attribute? a.name = none := by
    simp [d₁, ClassDef.attribute?, hattributes]
  simp only [hfree, ne_eq, not_true_eq_false, not_false_eq_true, true_and, hmethods,
    List.nil_append] at hfirst
  rcases hpass : Step.eachFrom (fun _ => Feature.onMethod (declareMethod id)) 0 c.features
    ⟨registry, log⟩ with ⟨failure | ⟨⟩, ⟨between, log'⟩, features⟩
  · have hrun : (Class.eachFeature (Feature.onMethod (declareMethod id))).runFrom
        (⟨registry, log⟩, c) = (.error failure, ⟨between, log'⟩, { c with features }) := by
      rw [Class.runFrom_eachFeature, hpass]
    rw [declareClass, Step.runFrom_bind_of_error hrun]
    rw [hpass] at hfirst
    simp only [reduceCtorEq, false_iff, false_implies, and_true] at hfirst ⊢
    exact fun hsigned => hfirst ⟨hsigned.methods, hsigned.params⟩
  · have hrun : (Class.eachFeature (Feature.onMethod (declareMethod id))).runFrom
        (⟨registry, log⟩, c) = (.ok (), ⟨between, log'⟩, { c with features }) := by
      rw [Class.runFrom_eachFeature, hpass]
    rw [declareClass, Step.runFrom_bind_of_ok hrun]
    rw [hpass] at hfirst
    obtain ⟨hsigned, hbetween⟩ := hfirst
    obtain ⟨hnodup, hparams⟩ := hsigned.mp rfl
    obtain rfl : between = registry.set id d₁ := hbetween rfl
    -- the first pass leaves the attributes in their places
    have hkept : features.filterMap Feature.attribute? = c.attributes := by
      have hmap := Feature.map_attribute?_onMethod (declareMethod id) 0 c.features ⟨registry, log⟩
      rw [hpass] at hmap
      have hmap := congrArg (List.filterMap fun a => a) hmap
      rw [List.filterMap_map, List.filterMap_map] at hmap
      exact hmap
    have hsecond := (registers_attributes names id).eachFrom features 0 log'
      (Registry.class?_set_self hd d₁) hnames
    rw [foldl_withAttribute, hkept, Registry.set_set] at hsecond
    simp only [hfree₁, ne_eq, not_true_eq_false, not_false_eq_true, true_and] at hsecond
    rw [Class.runFrom_eachFeature]
    refine ⟨hsecond.1.trans ?_, fun h => (hsecond.2 h).trans ?_⟩
    · exact ⟨fun h => ⟨hnodup, hparams, h.1, h.2⟩, fun h => ⟨h.attributes, h.types⟩⟩
    · simp only [d₁, hattributes, List.nil_append]

/-- The listing while the features are being registered: those of the classes in front of `k`
are. -/
def signing (names : Registry) (k i : Nat) (c : Class) : ClassDef :=
  if i < k then c.known names i else c.linked names i

/-- Registering the features of the class at `k` leads from one listing to the next. -/
theorem set_signing {classes : List Class} {c : Class} {k : Nat} (names : Registry)
    (hc : classes[k]? = some c) :
    (Registry.listing (signing names k) classes).set (Analysis.classId k) (c.known names k) =
      .listing (signing names (k + 1)) classes := by
  refine Registry.set_listing hc (if_pos (Nat.lt_succ_self k)) fun j c hj => ?_
  have : j < k + 1 ↔ j < k := by omega
  simp only [signing, this]

/-- The features of all classes are registered if and only if each class is well signed. -/
theorem eachFrom_declareClass_eq_ok_iff {classes rest : List Class} {k : Nat} (log : Array Event)
    (hnames : names = .listing Class.entry classes) (hrest : classes.drop k = rest) :
    ((Step.eachFrom (fun position => declareClass (Analysis.classId position)) k rest
        ⟨.listing (signing names k) classes, log⟩).1 = .ok () ↔
      ∀ c ∈ rest, c.WellSigned names) ∧
    ((Step.eachFrom (fun position => declareClass (Analysis.classId position)) k rest
        ⟨.listing (signing names k) classes, log⟩).1 = .ok () →
      (Step.eachFrom (fun position => declareClass (Analysis.classId position)) k rest
        ⟨.listing (signing names k) classes, log⟩).2.1.registry =
          .listing (Class.known names) classes) := by
  induction rest generalizing k log with
  | nil =>
    refine ⟨by simp [Step.eachFrom], fun _ => Registry.listing_congr fun i c hc => ?_⟩
    have hlt : i < classes.length := (List.getElem?_eq_some_iff.mp hc).1
    have hle : classes.length ≤ k := List.drop_eq_nil_iff.mp hrest
    exact if_pos (by omega)
  | cons c rest ih =>
    have hc : classes[k]? = some c := by
      rw [← List.head?_drop, hrest, List.head?_cons]
    have hnext : classes.drop (k + 1) = rest := by
      rw [← List.tail_drop, hrest, List.tail_cons]
    -- the class at `k` has its parent by now, but no features
    have hentry : signing names k k c = c.linked names k := if_neg (Nat.lt_irrefl k)
    have hfind (name : String) :
        (Registry.listing (signing names k) classes).find? name = names.find? name := by
      rw [Registry.find?_listing, hnames]
    obtain ⟨hsigned, hregistry⟩ := declareClass_eq_ok_iff log (c := c)
      ((Registry.class?_listing_of_getElem? _ hc).trans (congrArg some hentry)) hfind rfl rfl
    rcases hrun : (declareClass (Analysis.classId k)).runFrom
      (⟨.listing (signing names k) classes, log⟩, c) with ⟨failure | ⟨⟩, ⟨after, log'⟩, c'⟩
    · rw [hrun] at hsigned
      have hnot : ¬ c.WellSigned names := fun h => by cases hsigned.mpr h
      rw [Step.eachFrom_cons_of_error hrun]
      simp [hnot]
    · rw [hrun] at hsigned hregistry
      obtain rfl : after = .listing (signing names (k + 1)) classes :=
        (hregistry rfl).trans (set_signing names hc)
      obtain ⟨hall, hfinal⟩ := ih log' hnext
      rw [Step.eachFrom_cons_of_ok hrun]
      refine ⟨hall.trans ?_, hfinal⟩
      simp [hsigned.mp rfl]

end Signature

namespace Program

variable {p : Program} {registry : Registry}

/-- Recording the parents changes nothing that is registered. -/
theorem listing_withParents {entry : Nat → Class → ClassDef}
    (h : ∀ i c parent, entry i { c with recordedParent := parent } = entry i c)
    (registry : Registry) (classes : List Class) :
    Registry.listing entry (Analysis.withParents registry classes) = .listing entry classes := by
  have hsame {α : Type} {f : Nat → Class → α}
      (hf : ∀ i c parent, f i { c with recordedParent := parent } = f i c) :
      (Analysis.withParents registry classes).mapIdx f = classes.mapIdx f := by
    refine List.ext_getElem? fun i => ?_
    simp only [Analysis.withParents, List.getElem?_mapIdx, Option.map_map]
    congr 1
    funext c
    exact hf i c _
  rw [Registry.listing, Registry.listing, hsame h, hsame fun _ _ _ => rfl]

/-- Nor does it change what is demanded of the features. -/
theorem wellSigned_withParents_iff (names registry : Registry) (classes : List Class) :
    (∀ c ∈ Analysis.withParents registry classes, c.WellSigned names) ↔
      ∀ c ∈ classes, c.WellSigned names := by
  simp only [Analysis.withParents, List.mem_iff_getElem?, List.getElem?_mapIdx,
    Option.map_eq_some_iff]
  constructor
  · intro h c hc
    obtain ⟨i, hi⟩ := hc
    have hc := h _ ⟨i, c, hi, rfl⟩
    exact ⟨hc.methods, hc.params, hc.attributes, hc.types⟩
  · rintro h - ⟨i, c, hi, rfl⟩
    have hc := h c ⟨i, hi⟩
    exact ⟨hc.methods, hc.params, hc.attributes, hc.types⟩

/-- The declarations of a program are accepted if and only if it is well declared, and then the
registry is the table. -/
theorem declarations_eq_ok_iff :
    p.declarations = .ok registry ↔ p.WellDeclared ∧ registry = p.table := by
  have hbuilt (s : Resolving) := Hierarchy.runFrom_build_eq_ok_iff #[] s
    (show p.names = .listing Class.entry p.classes from rfl)
  have hdeclaring := Analysis.declaring p
  rw [declarations]
  generalize Analysis.declare.runFrom (Analysis.start p) = ran at hdeclaring ⊢
  cases hdeclaring with
  | unbuilt hbuild =>
    have hnot : ¬ p.WellDeclared := by
      intro h
      have hok := (hbuilt _).mpr ⟨⟨h.fresh, h.nodup, h.linked⟩, rfl⟩
      rw [hbuild] at hok
      cases hok
    simp [hnot, Except.map]
  | @signed s result t annotated hbuild hsignatures log =>
    obtain ⟨⟨hfresh, hnodup, hlinked⟩, hs⟩ := (hbuilt s).mp hbuild
    have hregistry : s.registry = .listing (Class.linked p.names) p.classes := by rw [hs]
    -- the classes come out of the first phase with their parents recorded, listed as they were
    let classes := Analysis.withParents s.registry p.classes
    have hstart : s.registry = .listing (Signature.signing p.names 0) classes := by
      rw [hregistry, ← listing_withParents (fun i c parent => rfl) s.registry]
      exact Registry.listing_congr fun i c _ => (if_neg (Nat.not_lt_zero i)).symm
    obtain ⟨hsigned, htable⟩ := Signature.eachFrom_declareClass_eq_ok_iff
      (s.log.push .hierarchyResolved)
      (show p.names = .listing Class.entry classes from
        (listing_withParents (fun i c parent => rfl) s.registry p.classes).symm)
      (List.drop_zero (l := classes))
    rw [← hstart, hsignatures] at hsigned htable
    have hdeclared : result = .ok () ↔ p.WellDeclared := by
      rw [hsigned, wellSigned_withParents_iff]
      exact ⟨fun h => ⟨hfresh, hnodup, hlinked, h⟩, WellDeclared.signed⟩
    cases result with
    | error failure =>
      have hnot : ¬ p.WellDeclared := fun h => by cases hdeclared.mpr h
      simp [hnot, Except.map]
    | ok =>
      have htable : t.registry = p.table :=
        (htable rfl).trans (listing_withParents (fun i c parent => rfl) s.registry p.classes)
      simp [hdeclared.mp rfl, Except.map, htable, eq_comm]

/-! ### Parents in the table -/

theorem size_table (p : Program) : p.table.size = Registry.builtin.size + p.classes.length :=
  Registry.size_listing

theorem indexed_names (p : Program) : p.names.Indexed := Registry.indexed_listing fun _ _ => rfl

theorem indexed_table (p : Program) : p.table.Indexed := Registry.indexed_listing fun _ _ => rfl

theorem find?_table (p : Program) (name : String) : p.table.find? name = p.names.find? name :=
  Registry.find?_listing _ _ name

theorem resolve?_table (p : Program) (typeName : String) :
    p.table.resolve? typeName = p.names.resolve? typeName :=
  Registry.resolve?_congr p.find?_table typeName

theorem class?_table {i : Nat} {c : Class} (hc : p.classes[i]? = some c) :
    p.table.class? (Analysis.classId i) = some (c.known p.names i) :=
  Registry.class?_listing_of_getElem? _ hc

theorem parentOf_table_iff {i : Nat} {c : Class} {parent : ClassId} (hc : p.classes[i]? = some c) :
    p.table.ParentOf (Analysis.classId i) parent ↔ c.parentId? p.names = some parent :=
  Registry.parentOf_listing_iff (fun _ _ => rfl) hc

/-- The built-in classes stand in the table as they are. -/
theorem class?_table_of_lt {id : ClassId} (h : id.index < Registry.builtin.size) :
    p.table.class? id = Registry.builtin.class? id :=
  Registry.class?_listing_of_lt h

/-- A class is built in, or it stands at a position of the program. -/
theorem class?_table_cases {id : ClassId} {d : ClassDef} (hd : p.table.class? id = some d) :
    (id = .object ∧ d = .object ∨ id = .string ∧ d = .string ∨ id = .inOut ∧ d = .inOut) ∨
      ∃ i c, id = Analysis.classId i ∧ p.classes[i]? = some c ∧ d = c.known p.names i := by
  by_cases hbuiltin : id.index < Registry.builtin.size
  · rw [class?_table_of_lt hbuiltin] at hd
    exact .inl (Registry.class?_builtin hd)
  · obtain ⟨i, rfl⟩ := Registry.exists_classId_of_le (Nat.le_of_not_lt hbuiltin)
    rw [table, Registry.class?_listing] at hd
    obtain ⟨c, hc, rfl⟩ := Option.map_eq_some_iff.mp hd
    exact .inr ⟨i, c, rfl, hc, rfl⟩

theorem WellDeclared.rooted (h : p.WellDeclared) : p.table.Rooted :=
  Registry.rooted_listing (fun _ _ => rfl) h.linked

end Program

end Lcpl
