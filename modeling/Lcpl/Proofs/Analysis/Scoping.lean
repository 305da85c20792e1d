import Lcpl.Proofs.Tree.Position
import Lcpl.Proofs.Analysis.Accepted
import Lcpl.Proofs.Analysis.Outline

/-!
# What a name is bound to

What a name stands for is said here from the text of the program alone: from the class and the
feature in which the name occurs, and from the local definitions that it stands behind. The
innermost of these that has the name counts; if there is none, the last parameter of the name; and
then the attribute of the name in the class or in the nearest ancestor that declares one. `self` is
the receiver if nothing else has the name.

The check looks names up in the registry and in the scopes that are in force. It finds what the text
says, where the scopes hold the local definitions.

## Main definitions

* `Program.HasAttribute` — the attribute of a name that a class declares or inherits
* `Program.Binds` — the variable of a name, and its type
* `Program.Denotes` — the same for names that are read, which include `self`
* `Registry.Enters` — scopes that hold given local definitions

## Main results

* `Program.WellDeclared.attribute?_eq_some_iff` — attributes are found in the nearest class
* `Program.WellDeclared.binds_iff`, `Program.WellDeclared.denotes_iff` — the lookup in scopes that
  hold the local definitions finds what a name is bound to
-/

namespace Lcpl

/-! ### What the text says -/

/-- The type that a declaration gives, by the name of the type. -/
def TypeName.declared (name : String) : TypeName :=
  if name = Vocabulary.int then .int else .object name

/-- The last parameter of a name. An initial value has no parameters. -/
def Feature.lastParam? (name : String) : Feature → Option Param
  | .method m => m.params.reverse.find? (·.name = name)
  | .attribute _ => none

namespace Program

/-- The attribute of a name that a class has, and the class that declares it: the class itself or,
if that declares none of the name, the one that its parent has it from. -/
inductive HasAttribute (p : Program) (name : String) : Class → Class → Attribute → Prop where
  | own {c a} (h : c.attribute? name = some a) : HasAttribute p name c c a
  | inherited {c parent owner a} (hnone : c.attribute? name = none) (hparent : parent ∈ p.classes)
      (hname : c.parent = some parent.name) (h : HasAttribute p name parent owner a) :
      HasAttribute p name c owner a

/-- In the feature `f` of the class `c`, behind the local definitions `defs`, the name is that of
the variable, which has the type. -/
inductive Binds (p : Program) (c : Class) (f : Feature) (defs : List Definition) (name : String) :
    VarRef → TypeName → Prop where
  | definition {d} (h : defs.find? (·.name = name) = some d) :
      Binds p c f defs name (.letBound name d.line) (.declared d.typeName)
  | param {param} (hdefs : defs.find? (·.name = name) = none) (h : f.lastParam? name = some param) :
      Binds p c f defs name (.param name) (.declared param.typeName)
  | inClass {owner a} (hdefs : defs.find? (·.name = name) = none)
      (hparams : f.lastParam? name = none) (h : p.HasAttribute name c owner a) :
      Binds p c f defs name (.attribute owner.name name) (.declared a.typeName)

/-- The name stands for the variable where it is read: `self` is the receiver, which is an object of
the class, if the name is not bound. -/
inductive Denotes (p : Program) (c : Class) (f : Feature) (defs : List Definition) (name : String) :
    VarRef → TypeName → Prop where
  | bound {ref type} (h : p.Binds c f defs name ref type) : Denotes p c f defs name ref type
  | receiver (hname : name = Vocabulary.receiver)
      (hfree : ∀ ref type, ¬ p.Binds c f defs name ref type) :
      Denotes p c f defs name .receiver (.object c.name)

end Program

/-! ### Variables of a declared type -/

namespace Registry

variable {registry : Registry} {ref : VarRef} {typeName name : String} {found : Variable} {ty : Ty}
variable {defs : List Definition} {locals scope : Scopes String Variable}

/-- The variable has the type that is declared for it. -/
def Introduces (registry : Registry) (ref : VarRef) (typeName : String) (found : Variable) : Prop :=
  ∃ ty, registry.resolve? typeName = some ty ∧ found = ⟨ty, ref⟩

theorem Indexed.label?_of_resolve? (hindexed : registry.Indexed)
    (h : registry.resolve? name = some ty) : registry.label? ty = some (.declared name) := by
  rcases resolve?_eq_some_iff.mp h with ⟨rfl, rfl⟩ | ⟨hname, id, hfind, rfl⟩
  · rfl
  · obtain ⟨c, hc, rfl⟩ := hindexed.exists_class? hfind
    simp [label?, hc, TypeName.declared, hname]

/-- It is recorded with this type. -/
theorem Introduces.label? (hindexed : registry.Indexed)
    (h : registry.Introduces ref typeName found) :
    registry.label? found.ty = some (.declared typeName) := by
  obtain ⟨ty, hty, rfl⟩ := h
  exact hindexed.label?_of_resolve? hty

theorem Introduces.ref_eq (h : registry.Introduces ref typeName found) : found.ref = ref := by
  obtain ⟨ty, -, rfl⟩ := h
  rfl

/-! ### Local definitions -/

/-- Of every name, the scopes hold the innermost local definition. -/
def Enters (registry : Registry) (defs : List Definition)
    (locals : Scopes String Variable) : Prop :=
  ∀ name, Option.Rel (fun d => registry.Introduces (.letBound name d.line) d.typeName)
    (defs.find? (·.name = name)) (locals.find? name)

theorem Enters.empty : registry.Enters [] .empty := fun _ => .none

theorem Enters.of_find? (h : registry.Enters defs locals)
    (hfind : ∀ name, scope.find? name = locals.find? name) : registry.Enters defs scope := by
  intro name
  rw [hfind]
  exact h name

/-- Behind one more local definition, this is the innermost one. -/
theorem Enters.scopeOf {Γ : Context} {d : Definition} (h : Γ.registry.Enters defs locals)
    (hty : Γ.registry.resolve? d.typeName = some ty) :
    Γ.registry.Enters (d :: defs) (Γ.scopeOf d.line d.name d.typeName locals) := by
  intro name
  rw [Context.scopeOf, hty, Scopes.find?_define, List.find?_cons]
  by_cases hname : d.name = name
  · subst hname
    simpa using Option.Rel.some ⟨ty, hty, rfl⟩
  · have hother : (name == d.name) = false := by simpa using fun heq => hname heq.symm
    simpa [hname, hother] using h name

end Registry

/-! ### Parameters -/

/-- Of related lists, the first members that are looked for are related. -/
theorem rel_find?_of_forall₂ {α β : Type} {R : α → β → Prop} {P : α → Bool} {Q : β → Bool}
    {xs : List α} {ys : List β} (h : List.Forall₂ R xs ys) (hsame : ∀ x y, R x y → P x = Q y) :
    Option.Rel R (xs.find? P) (ys.find? Q) := by
  induction h with
  | nil => exact .none
  | @cons x y _ _ hxy _ ih =>
    rw [List.find?_cons, List.find?_cons, hsame x y hxy]
    cases Q y with
    | true => exact .some hxy
    | false => exact ih

/-- The parameter that is found is the last one of the name. -/
theorem Feature.Sees.rel_param? {registry : Registry} {id : ClassId} {f : Feature} {Γ : Context}
    (h : f.Sees registry id Γ) (name : String) :
    Option.Rel (fun param => registry.Introduces (.param name) param.typeName)
      (f.lastParam? name) (Γ.param? name) := by
  rcases f with m | a
  · obtain ⟨params, rfl, hparams⟩ := h
    -- of two parameters of one name both searches find the last
    have hfound := rel_find?_of_forall₂ (List.forall₂_reverse_iff.mpr hparams)
      (P := (·.name = name)) (Q := (·.name = name)) fun param known hknown => by rw [hknown.1]
    rw [lastParam?, Context.param?]
    generalize m.params.reverse.find? (·.name = name) = param? at hfound ⊢
    generalize hlast : params.reverse.find? (·.name = name) = known? at hfound ⊢
    cases hfound with
    | none => exact .none
    | @some _ known hknown =>
      obtain rfl : known.name = name := by simpa using List.find?_some hlast
      exact .some ⟨known.ty, hknown.2.2, rfl⟩
  · obtain rfl := h
    exact .none

theorem Feature.Sees.currentClass_eq {registry : Registry} {id : ClassId} {f : Feature}
    {Γ : Context} (h : f.Sees registry id Γ) : Γ.currentClass = id := by
  rcases f with m | a
  · obtain ⟨params, rfl, -⟩ := h
    rfl
  · obtain rfl := h
    rfl

theorem Attribute.name_of_known? {names : Registry} {id : ClassId} {a : Attribute}
    {attr : AttributeDef} (h : a.known? names id = some attr) : attr.name = a.name := by
  obtain ⟨ty, -, rfl⟩ := Option.map_eq_some_iff.mp h
  rfl

namespace Program

variable {p : Program} {c owner : Class} {a : Attribute} {attr : AttributeDef} {name : String}
variable {i k : Nat} {id : ClassId}

/-! ### Attributes -/

theorem classId_injective : Function.Injective Analysis.classId := by
  intro i j h
  exact Nat.add_left_cancel (ClassId.mk.inj h)

theorem classId_ne_of_builtin (hid : id.index < Registry.builtin.size) :
    id ≠ Analysis.classId i := by
  rintro rfl
  exact absurd hid (Nat.not_lt.mpr (Nat.le_add_right _ _))

theorem HasAttribute.name_eq (h : p.HasAttribute name c owner a) : a.name = name := by
  induction h with
  | own ha => simpa using List.find?_some ha
  | inherited _ _ _ _ ih => exact ih

section Binds

variable {f : Feature} {defs : List Definition} {ref : VarRef} {type : TypeName}

theorem binds_iff_of_definition {d : Definition} (hd : defs.find? (·.name = name) = some d) :
    p.Binds c f defs name ref type ↔ ref = .letBound name d.line ∧ type = .declared d.typeName := by
  constructor
  · intro h
    cases h with
    | definition hd' =>
      obtain rfl := Option.some_inj.mp (hd.symm.trans hd')
      exact ⟨rfl, rfl⟩
    | param hdefs | inClass hdefs => cases hd.symm.trans hdefs
  · rintro ⟨rfl, rfl⟩
    exact .definition hd

theorem binds_iff_of_param {param : Param} (hdefs : defs.find? (·.name = name) = none)
    (hparam : f.lastParam? name = some param) :
    p.Binds c f defs name ref type ↔ ref = .param name ∧ type = .declared param.typeName := by
  constructor
  · intro h
    cases h with
    | definition hd => cases hdefs.symm.trans hd
    | param _ hparam' =>
      obtain rfl := Option.some_inj.mp (hparam.symm.trans hparam')
      exact ⟨rfl, rfl⟩
    | inClass _ hparams => cases hparam.symm.trans hparams
  · rintro ⟨rfl, rfl⟩
    exact .param hdefs hparam

theorem binds_iff_of_free (hdefs : defs.find? (·.name = name) = none)
    (hparams : f.lastParam? name = none) :
    p.Binds c f defs name ref type ↔ ∃ owner a, p.HasAttribute name c owner a ∧
      ref = .attribute owner.name name ∧ type = .declared a.typeName := by
  constructor
  · intro h
    cases h with
    | definition hd => cases hdefs.symm.trans hd
    | param _ hparam => cases hparams.symm.trans hparam
    | inClass _ _ hhas => exact ⟨_, _, hhas, rfl, rfl⟩
  · rintro ⟨owner, a, hhas, rfl, rfl⟩
    exact .inClass hdefs hparams hhas

end Binds

namespace WellDeclared

variable (h : p.WellDeclared)
include h

/-- What a class of the program declares itself is registered for it. -/
theorem ownAttribute?_eq (hc : p.classes[i]? = some c) :
    p.table.ownAttribute? (Analysis.classId i) name =
      (c.attribute? name).bind (Attribute.known? p.names (Analysis.classId i)) := by
  have hnodup := (h.signed c (List.mem_of_getElem? hc)).attributes
  apply Option.ext
  intro attr
  rw [h.ownAttribute?_eq_some_iff (class?_table hc), Option.bind_eq_some_iff, Class.known,
    List.mem_filterMap]
  simp only [Class.attribute?, find?_eq_some_iff_of_nodup hnodup]
  constructor
  · rintro ⟨⟨a, ha, hattr⟩, rfl⟩
    exact ⟨a, ⟨ha, (Attribute.name_of_known? hattr).symm⟩, hattr⟩
  · rintro ⟨a, ⟨ha, rfl⟩, hattr⟩
    exact ⟨⟨a, ha, hattr⟩, Attribute.name_of_known? hattr⟩

theorem exists_known? (hc : p.classes[i]? = some c) (ha : c.attribute? name = some a)
    (id : ClassId) :
    ∃ attr, a.known? p.names id = some attr := by
  have htype := (h.signed c (List.mem_of_getElem? hc)).types a (List.mem_of_find?_eq_some ha)
  obtain ⟨ty, hty⟩ := Option.isSome_iff_exists.mp htype
  exact ⟨_, by rw [Attribute.known?, hty, Option.map_some]⟩

/-- An attribute that a class has is found from there. -/
theorem exists_finds_of_hasAttribute (hhas : p.HasAttribute name c owner a)
    (hc : p.classes[i]? = some c) :
    ∃ k attr, p.classes[k]? = some owner ∧ a.known? p.names (Analysis.classId k) = some attr ∧
      p.table.Finds (p.table.ownAttribute? · name) (Analysis.classId i) attr := by
  induction hhas generalizing i with
  | @own c a ha =>
    obtain ⟨attr, hattr⟩ := h.exists_known? hc ha (Analysis.classId i)
    exact ⟨i, attr, hc, hattr, .own (by rw [h.ownAttribute?_eq hc, ha, Option.bind_some, hattr])⟩
  | @inherited c parent owner a hnone hparent hname _ ih =>
    obtain ⟨k, hk⟩ := List.mem_iff_getElem?.mp hparent
    obtain ⟨l, attr, hl, hattr, hfinds⟩ := ih hk
    refine ⟨l, attr, hl, hattr, .above ?_ ?_ hfinds⟩
    · rw [h.ownAttribute?_eq hc, hnone, Option.bind_none]
    · have hfind : p.table.find? parent.name = some (Analysis.classId k) :=
        h.coherent.find?_name (class?_table hk)
      rw [parentOf_table_iff hc, Class.parentId?, hname]
      exact (find?_table p parent.name).symm.trans hfind

theorem exists_introduces (hhas : p.HasAttribute name c owner a) (hc : p.classes[i]? = some c)
    (ref : VarRef) : ∃ found, p.table.Introduces ref a.typeName found := by
  obtain ⟨k, attr, -, hattr, -⟩ := h.exists_finds_of_hasAttribute hhas hc
  obtain ⟨ty, hty, -⟩ := Option.map_eq_some_iff.mp hattr
  exact ⟨⟨ty, ref⟩, ty, (resolve?_table ..).trans hty, rfl⟩

/-- A class that has an attribute from somewhere is a class of the program. -/
theorem exists_hasAttribute_of_finds
    (hfinds : p.table.Finds (p.table.ownAttribute? · name) id attr) :
    ∃ i c k owner a, id = Analysis.classId i ∧ p.classes[i]? = some c ∧
      p.classes[k]? = some owner ∧ a.known? p.names (Analysis.classId k) = some attr ∧
      p.HasAttribute name c owner a := by
  -- the built-in classes have no attributes, so that the search neither ends in one nor passes one
  induction hfinds with
  | @own id attr hown =>
    obtain ⟨d, hd, hmem⟩ := Option.bind_eq_some_iff.mp hown
    rcases class?_table_cases hd with (⟨-, rfl⟩ | ⟨-, rfl⟩ | ⟨-, rfl⟩) | ⟨i, c, rfl, hc, -⟩
    · cases hmem
    · cases hmem
    · cases hmem
    · rw [h.ownAttribute?_eq hc] at hown
      obtain ⟨a, ha, hattr⟩ := Option.bind_eq_some_iff.mp hown
      exact ⟨i, c, i, c, a, rfl, hc, hc, hattr, .own ha⟩
  | @above id parent attr hnone hparent _ ih =>
    obtain ⟨l, e, k, owner, a, rfl, he, hk, hattr, hhas⟩ := ih
    obtain ⟨d, hd, hlink⟩ := Option.bind_eq_some_iff.mp hparent
    have hobject : ClassId.object ≠ Analysis.classId l := classId_ne_of_builtin (by decide)
    rcases class?_table_cases hd with (⟨-, rfl⟩ | ⟨-, rfl⟩ | ⟨-, rfl⟩) | ⟨i, c, rfl, hc, rfl⟩
    · cases hlink
    · exact absurd (Option.some_inj.mp hlink) hobject
    · exact absurd (Option.some_inj.mp hlink) hobject
    · refine ⟨i, c, k, owner, a, rfl, hc, hk, hattr,
        .inherited ?_ (List.mem_of_getElem? he) ?_ hhas⟩
      · cases hown : c.attribute? name with
        | none => rfl
        | some own =>
          obtain ⟨attr, hattr⟩ := h.exists_known? hc hown (Analysis.classId i)
          rw [h.ownAttribute?_eq hc, hown, Option.bind_some, hattr] at hnone
          cases hnone
      · have hlink : c.parentId? p.names = some (Analysis.classId l) := hlink
        unfold Class.parentId? at hlink
        split at hlink
        · exact absurd (Option.some_inj.mp hlink) hobject
        · next y hy =>
          rw [← find?_table] at hlink
          obtain ⟨d, hd, rfl⟩ := p.indexed_table.exists_class? hlink
          obtain rfl := Option.some_inj.mp (hd.symm.trans (class?_table he))
          exact hy

variable {Γ : Context} {f : Feature} {found : Variable} {defs : List Definition}
variable {locals : Scopes String Variable} {ref : VarRef} {type : TypeName}

/-- The attribute that is found is the one that the class declares or inherits. -/
theorem attribute?_eq_some_iff (hc : p.classes[i]? = some c)
    (hsees : f.Sees p.table (Analysis.classId i) Γ) :
    Γ.attribute? name = some found ↔ ∃ owner a, p.HasAttribute name c owner a ∧
      p.table.Introduces (.attribute owner.name name) a.typeName found := by
  have howner {k : Nat} {owner : Class} (hk : p.classes[k]? = some owner) :
      p.table.name? (Analysis.classId k) = some owner.name := by
    rw [Registry.name?, class?_table hk]
    rfl
  rw [Context.attribute?, hsees.registry_eq, hsees.currentClass_eq, Option.bind_eq_some_iff]
  simp only [Registry.lookupAttribute?_eq_some_iff]
  constructor
  · rintro ⟨attr, hfinds, hfound⟩
    obtain ⟨j, c', k, owner, a, hj, hc', hk, hattr, hhas⟩ := h.exists_hasAttribute_of_finds hfinds
    obtain rfl := classId_injective hj
    obtain rfl := Option.some_inj.mp (hc.symm.trans hc')
    obtain ⟨ty, hty, rfl⟩ := Option.map_eq_some_iff.mp hattr
    rw [howner hk, Option.map_some, hhas.name_eq] at hfound
    exact ⟨owner, a, hhas, ty, (resolve?_table ..).trans hty, (Option.some_inj.mp hfound).symm⟩
  · rintro ⟨owner, a, hhas, ty, hty, rfl⟩
    obtain ⟨k, attr, hk, hattr, hfinds⟩ := h.exists_finds_of_hasAttribute hhas hc
    refine ⟨attr, hfinds, ?_⟩
    rw [Attribute.known?, ← resolve?_table, hty] at hattr
    obtain rfl := Option.some_inj.mp hattr
    rw [howner hk, Option.map_some, hhas.name_eq]

/-! ### Names -/

/-- Where the scopes hold the local definitions, the lookup of a name fails if the name is not
bound, and finds what it is bound to if it is. -/
theorem lookup?_cases (hc : p.classes[i]? = some c) (hsees : f.Sees p.table (Analysis.classId i) Γ)
    (hdefs : p.table.Enters defs locals) (name : String) :
    (Γ.lookup? locals name = none ∧ ∀ ref type, ¬ p.Binds c f defs name ref type) ∨
      ∃ found ref typeName, Γ.lookup? locals name = some found ∧
        p.table.Introduces ref typeName found ∧
        ∀ ref' type, p.Binds c f defs name ref' type ↔ ref' = ref ∧ type = .declared typeName := by
  have hlocal := hdefs name
  have hparam := hsees.rel_param? name
  rw [Context.lookup?]
  -- each level of the lookup stands beside the same level of the text
  generalize hd : defs.find? (·.name = name) = d?, locals.find? name = local? at hlocal
  generalize hlast : f.lastParam? name = param?, Γ.param? name = known? at hparam
  cases hlocal with
  | some hfound => exact .inr ⟨_, _, _, rfl, hfound, fun _ _ => binds_iff_of_definition hd⟩
  | none =>
    cases hparam with
    | some hfound => exact .inr ⟨_, _, _, rfl, hfound, fun _ _ => binds_iff_of_param hd hlast⟩
    | none =>
      have hsearch {owner : Class} {a : Attribute} (hhas : p.HasAttribute name c owner a) :
          ∃ found, Γ.attribute? name = some found ∧
            p.table.Introduces (.attribute owner.name name) a.typeName found := by
        obtain ⟨found, hfound⟩ := h.exists_introduces hhas hc (.attribute owner.name name)
        exact ⟨found, (h.attribute?_eq_some_iff hc hsees).mpr ⟨owner, a, hhas, hfound⟩, hfound⟩
      cases hattr : Γ.attribute? name with
      | none =>
        refine .inl ⟨rfl, fun ref type hbinds => ?_⟩
        obtain ⟨owner, a, hhas, -⟩ := (binds_iff_of_free hd hlast).mp hbinds
        obtain ⟨found, hfound, -⟩ := hsearch hhas
        cases hattr.symm.trans hfound
      | some found =>
        obtain ⟨owner, a, hhas, hfound⟩ := (h.attribute?_eq_some_iff hc hsees).mp hattr
        refine .inr ⟨found, _, _, rfl, hfound, fun ref type => ?_⟩
        rw [binds_iff_of_free hd hlast]
        constructor
        · rintro ⟨owner', a', hhas', rfl, rfl⟩
          obtain ⟨found', hattr', hfound'⟩ := hsearch hhas'
          obtain rfl := Option.some_inj.mp (hattr.symm.trans hattr')
          exact ⟨hfound'.ref_eq.symm.trans hfound.ref_eq,
            Option.some_inj.mp
              ((hfound'.label? p.indexed_table).symm.trans (hfound.label? p.indexed_table))⟩
        · rintro ⟨rfl, rfl⟩
          exact ⟨owner, a, hhas, rfl, rfl⟩

/-- A name is looked up to what it is bound to. -/
theorem binds_iff (hc : p.classes[i]? = some c) (hsees : f.Sees p.table (Analysis.classId i) Γ)
    (hdefs : p.table.Enters defs locals) (hfound : Γ.lookup? locals name = some found)
    (htype : p.table.label? found.ty = some type) (ref' : VarRef) (type' : TypeName) :
    p.Binds c f defs name ref' type' ↔ ref' = found.ref ∧ type' = type := by
  rcases h.lookup?_cases hc hsees hdefs name with ⟨hnone, -⟩ | ⟨_, _, _, hsome, hintro, hbinds⟩
  · cases hnone.symm.trans hfound
  · obtain rfl := Option.some_inj.mp (hsome.symm.trans hfound)
    obtain rfl := Option.some_inj.mp ((hintro.label? p.indexed_table).symm.trans htype)
    rw [hbinds, hintro.ref_eq]

/-- The same for names that are read. -/
theorem denotes_iff (hc : p.classes[i]? = some c) (hsees : f.Sees p.table (Analysis.classId i) Γ)
    (hdefs : p.table.Enters defs locals) (hfound : Γ.denoted? locals name = some found)
    (htype : p.table.label? found.ty = some type) (ref' : VarRef) (type' : TypeName) :
    p.Denotes c f defs name ref' type' ↔ ref' = found.ref ∧ type' = type := by
  rw [Context.denoted?] at hfound
  rcases h.lookup?_cases hc hsees hdefs name with ⟨hnone, hfree⟩ | ⟨_, ref, _, hsome, -, hbinds⟩
  · -- a name that nothing binds can only stand for the receiver
    rw [hnone] at hfound
    by_cases hname : name = Vocabulary.receiver
    · obtain rfl := Option.some_inj.mp ((if_pos hname).symm.trans hfound)
      have hlabel : p.table.label? (.object Γ.currentClass) = some (.object c.name) := by
        rw [hsees.currentClass_eq, Registry.label?, class?_table hc]
        rfl
      obtain rfl := Option.some_inj.mp (hlabel.symm.trans htype)
      constructor
      · intro hdenotes
        cases hdenotes with
        | bound hbound => exact absurd hbound (hfree _ _)
        | receiver => exact ⟨rfl, rfl⟩
      · rintro ⟨rfl, rfl⟩
        exact .receiver hname hfree
    · cases (if_neg hname).symm.trans hfound
  · rw [hsome] at hfound
    rw [← h.binds_iff hc hsees hdefs (hsome.trans hfound) htype]
    constructor
    · intro hdenotes
      cases hdenotes with
      | bound hbound => exact hbound
      | receiver _ hfree => exact absurd ((hbinds _ _).mpr ⟨rfl, rfl⟩) (hfree _ _)
    · exact .bound

end WellDeclared

end Program

end Lcpl
