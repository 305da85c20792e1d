import Lcpl.Proofs.Analysis.Table
import Lcpl.Proofs.Registry.Renaming

/-!
# What the declarations record

The phases in front of the bodies annotate each declaration as they come to it. Seen from the end,
the annotations can be written down at once: a type is recorded under the name that it resolves to
in the table of the program, and nothing that is registered on the way changes this. Only names are
recorded, so a table with other class numbers leads to the same annotations.

## Main definitions

* `Registry.recorded?` — the type that is recorded for a name in a declaration
* `Feature.annotated`, `Class.annotated` — declarations with all that is recorded for them

## Main results

* `Analysis.classes_of_declare` — the classes of a program behind the declarations
* `Class.annotated_of_renames` — the annotations do not depend on class numbers
-/

namespace Lcpl

/-! ### Annotations -/

/-- The type that is recorded for a name in a declaration. -/
def Registry.recorded? (registry : Registry) (typeName : String) : Option TypeName :=
  (registry.resolve? typeName).bind registry.label?

section

variable (registry : Registry)

def Param.annotated (param : Param) : Param :=
  { param with recordedType := registry.recorded? param.typeName }

def Method.annotated (className : String) (m : Method) : Method :=
  (m.owned className (m.params.map (Param.annotated registry))).returning registry

def Attribute.annotated (a : Attribute) : Attribute :=
  { a with recordedType := registry.recorded? a.typeName }

/-- A feature of a class, with all that is recorded for it. -/
def Feature.annotated (className : String) : Feature → Feature
  | .method m => .method (m.annotated registry className)
  | .attribute a => .attribute (a.annotated registry)

/-- A feature behind the pass over the methods of its class. -/
def Feature.annotatedMethod (className : String) : Feature → Feature
  | .method m => .method (m.annotated registry className)
  | .attribute a => .attribute a

/-- A feature behind the pass over the attributes of its class. -/
def Feature.annotatedAttribute : Feature → Feature
  | .method m => .method m
  | .attribute a => .attribute (a.annotated registry)

theorem Feature.annotatedAttribute_annotatedMethod (className : String) (f : Feature) :
    (f.annotatedMethod registry className).annotatedAttribute registry =
      f.annotated registry className := by
  rcases f with m | a <;> rfl

/-- A class with all that is recorded for it and for its features. -/
def Class.annotated (c : Class) : Class :=
  { c with
    features := c.features.map (Feature.annotated registry c.name)
    recordedParent :=
      (registry.find? c.name).bind fun id => (registry.parent? id).bind registry.name? }

end

/-! ### Registries that record the same -/

/-- The second registry records the same types as the first. -/
structure Registry.RecordsAs (registry registry' : Registry) : Prop where
  declared : ∀ name, registry'.recorded? name = registry.recorded? name
  returned : ∀ name, (registry'.resolveReturn? name).map registry'.label? =
    (registry.resolveReturn? name).map registry.label?

namespace Registry.RecordsAs

variable {registry registry' : Registry}

/-- A return type is recorded like any other type, apart from `void`. -/
theorem of_resolve? (h : ∀ name, (registry'.resolve? name).map registry'.label? =
    (registry.resolve? name).map registry.label?) : registry.RecordsAs registry' where
  declared name := by
    simpa [recorded?, Option.bind_map, Function.comp_def] using congrArg (·.bind id) (h name)
  returned name := by
    rw [resolveReturn?, resolveReturn?]
    split_ifs
    · rfl
    · exact h name

theorem of_extends (hindexed : registry.Indexed) (h : registry.Extends registry') :
    registry.RecordsAs registry' := by
  refine of_resolve? fun name => ?_
  rw [show registry'.resolve? name = registry.resolve? name by rw [resolve?, resolve?, h.find?_eq]]
  cases hty : registry.resolve? name with
  | none => rfl
  | some ty =>
    rw [Option.map_some, Option.map_some]
    rcases resolve?_eq_some_iff.mp hty with ⟨-, rfl⟩ | ⟨-, id, hfind, rfl⟩
    · rfl
    · obtain ⟨c, hc, -⟩ := hindexed.exists_class? hfind
      obtain ⟨c', hc', hname, -⟩ := h.class? hc
      rw [label?, label?, hc, hc', Option.map_some, Option.map_some, hname]

theorem of_renames {π : ClassId → ClassId} (h : registry.Renames π registry') :
    registry.RecordsAs registry' := by
  refine of_resolve? fun name => ?_
  rw [h.resolve?, Option.map_map]
  congr 1
  funext ty
  exact h.label? ty

theorem annotated_method (h : registry.RecordsAs registry') (className : String) (m : Method) :
    m.annotated registry' className = m.annotated registry className := by
  have hparams : m.params.map (Param.annotated registry') =
      m.params.map (Param.annotated registry) :=
    List.map_congr_left fun param _ => by rw [Param.annotated, Param.annotated, h.declared]
  have hreturn := h.returned m.returnType
  rw [Method.annotated, Method.annotated, hparams]
  simp only [Method.returning, Method.owned]
  cases hty : registry.resolveReturn? m.returnType with
  | none =>
    rw [hty, Option.map_none, Option.map_eq_none_iff] at hreturn
    rw [hreturn]
  | some ty =>
    rw [hty, Option.map_some, Option.map_eq_some_iff] at hreturn
    obtain ⟨ty', hty', hlabel⟩ := hreturn
    simp only [hty', hlabel]

theorem annotated_attribute (h : registry.RecordsAs registry') (a : Attribute) :
    a.annotated registry' = a.annotated registry := by
  rw [Attribute.annotated, Attribute.annotated, h.declared]

theorem annotated_feature (h : registry.RecordsAs registry') (className : String) (f : Feature) :
    f.annotated registry' className = f.annotated registry className := by
  rcases f with m | a
  · exact congrArg Feature.method (h.annotated_method className m)
  · exact congrArg Feature.attribute (h.annotated_attribute a)

end Registry.RecordsAs

/-- Only names are recorded, so the annotations do not depend on class numbers. -/
theorem Class.annotated_of_renames {π : ClassId → ClassId} {registry registry' : Registry}
    (h : registry.Renames π registry') (c : Class) :
    c.annotated registry' = c.annotated registry := by
  have hfeatures : c.features.map (Feature.annotated registry' c.name) =
      c.features.map (Feature.annotated registry c.name) :=
    List.map_congr_left fun f _ => (Registry.RecordsAs.of_renames h).annotated_feature c.name f
  have hparent :
      ((registry'.find? c.name).bind fun id => (registry'.parent? id).bind registry'.name?) =
      (registry.find? c.name).bind fun id => (registry.parent? id).bind registry.name? := by
    rw [h.find?]
    cases registry.find? c.name with
    | none => rfl
    | some id =>
      rw [Option.map_some, Option.bind_some, Option.bind_some, h.parent?]
      cases registry.parent? id with
      | none => rfl
      | some parent => exact h.name? parent
  rw [annotated, annotated, hfeatures, hparent]

/-! ### Steps -/

/-- Where every step that ends well does `f` to its element, so does the run. -/
theorem Step.eachFrom_eq_map {σ α : Type} {step : Nat → Step (σ × α) Unit} {f : α → α}
    {I : σ → Prop} {k : Nat} {s s' : σ} {xs ys : List α}
    (hstep : ∀ i x s s' x', xs[i]? = some x → I s →
      (step (k + i)).runFrom (s, x) = (.ok (), s', x') →
      I s' ∧ x' = f x)
    (hs : I s) (hrun : eachFrom step k xs s = (.ok (), s', ys)) : I s' ∧ ys = xs.map f := by
  induction xs generalizing k s ys with
  | nil =>
    obtain ⟨rfl, rfl⟩ := by simpa [eachFrom] using hrun
    exact ⟨hs, rfl⟩
  | cons x xs ih =>
    obtain ⟨t, x', zs, hx, hrest, rfl⟩ := exists_of_eachFrom_cons_ok hrun
    obtain ⟨ht, rfl⟩ := hstep 0 x s t x' rfl hs hx
    -- the later steps are those of the tail, counted from one further on
    have hlater : ∀ i y s s' y', xs[i]? = some y → I s →
        (step (k + 1 + i)).runFrom (s, y) = (.ok (), s', y') → I s' ∧ y' = f y := by
      intro i y s s' y' hy
      rw [show k + 1 + i = k + (i + 1) by omega]
      exact hstep (i + 1) y s s' y' hy
    obtain ⟨hu, rfl⟩ := ih hlater ht hrest
    exact ⟨hu, rfl⟩

theorem Class.eachFeature_eq_map {σ : Type} {step : Step (σ × Feature) Unit} {f : Feature → Feature}
    {I : σ → Prop} {s s' : σ} {c c' : Class}
    (hstep : ∀ x s s' x', I s → step.runFrom (s, x) = (.ok (), s', x') → I s' ∧ x' = f x) (hs : I s)
    (h : (eachFeature step).runFrom (s, c) = (.ok (), s', c')) :
    I s' ∧ c' = { c with features := c.features.map f } := by
  rw [runFrom_eachFeature] at h
  rcases hrun : Step.eachFrom (fun _ => step) 0 c.features s with ⟨result, t, features⟩
  rw [hrun] at h
  obtain ⟨rfl, rfl, rfl⟩ := by simpa using h
  obtain ⟨ht, rfl⟩ := Step.eachFrom_eq_map (fun _ x s s' x' _ => hstep x s s' x') hs hrun
  exact ⟨ht, rfl⟩

theorem Registry.resolveParams_snd_of_ok {registry : Registry} {params annotated : List Param}
    {defs : List ParamDef} (h : registry.resolveParams params = (.ok defs, annotated)) :
    annotated = params.map (Param.annotated registry) := by
  induction params generalizing annotated defs with
  | nil =>
    obtain ⟨-, rfl⟩ := by simpa [resolveParams] using h
    rfl
  | cons param params ih =>
    cases htype : registry.resolve? param.typeName with
    | none => simp [resolveParams, resolveDeclared, htype] at h
    | some ty =>
      rcases hrest : registry.resolveParams params with ⟨failure | rest, annotated'⟩
      · simp [resolveParams, resolveDeclared, htype, hrest, Except.map] at h
      · obtain ⟨-, rfl⟩ := by
          simpa [resolveParams, resolveDeclared, htype, hrest, Except.map] using h
        rw [List.map_cons, ← ih hrest, Param.annotated, recorded?, htype]
        rfl

namespace Signature

variable {before : Registry} {id : ClassId} {className : String} {s s' : Resolving}
variable (hindexed : before.Indexed)
include hindexed

/-- The registration of a method annotates it, as the names stand in the beginning. -/
theorem declareMethod_eq_annotated {m m' : Method} (hbefore : before.Extends s.registry)
    (hname : before.name? id = some className)
    (h : (declareMethod id).runFrom (s, m) = (.ok (), s', m')) :
    before.Extends s'.registry ∧ m' = m.annotated before className := by
  refine ⟨hbefore.trans (declares_of_declareMethod h).1, ?_⟩
  rw [← (Registry.RecordsAs.of_extends hindexed hbefore).annotated_method]
  obtain ⟨registry, log⟩ := s
  obtain ⟨c, hc, rfl⟩ := Option.map_eq_some_iff.mp (hbefore.name?_eq hname)
  obtain ⟨log', hrun⟩ := runFrom_declareMethod id registry log m
  rw [hrun, hc] at h
  dsimp only at h
  split at h
  · cases h
  · rcases hparams : registry.resolveParams m.params with ⟨failure | defs, params⟩
    · simp [hparams] at h
    · obtain ⟨-, rfl⟩ := by simpa [hparams] using h
      rw [Registry.resolveParams_snd_of_ok hparams]
      rfl

theorem declareAttribute_eq_annotated {a a' : Attribute} (hbefore : before.Extends s.registry)
    (h : (declareAttribute id).runFrom (s, a) = (.ok (), s', a')) :
    before.Extends s'.registry ∧ a' = a.annotated before := by
  refine ⟨hbefore.trans (declares_of_declareAttribute h).1, ?_⟩
  rw [← (Registry.RecordsAs.of_extends hindexed hbefore).annotated_attribute]
  obtain ⟨registry, log⟩ := s
  rw [runFrom_declareAttribute] at h
  cases htype : registry.resolve? a.typeName with
  | none => simp [htype] at h
  | some ty =>
    have ha' : a' = { a with recordedType := registry.label? ty } := by
      cases hc : registry.class? id with
      | none => simp [htype, hc] at h
      | some c =>
        simp only [htype, hc] at h
        split at h
        · cases h
        · obtain ⟨-, rfl⟩ := by simpa using h
          rfl
    rw [ha', Attribute.annotated, Registry.recorded?, htype]
    rfl

theorem onMethod_eq_annotated {f f' : Feature} (hbefore : before.Extends s.registry)
    (hname : before.name? id = some className)
    (h : (Feature.onMethod (declareMethod id)).runFrom (s, f) = (.ok (), s', f')) :
    before.Extends s'.registry ∧ f' = f.annotatedMethod before className := by
  rcases f with m | a
  · rw [Feature.runFrom_onMethod] at h
    rcases hm : (declareMethod id).runFrom (s, m) with ⟨result, t, m'⟩
    obtain ⟨rfl, rfl, rfl⟩ := by simpa [hm] using h
    obtain ⟨hextends, rfl⟩ := declareMethod_eq_annotated hindexed hbefore hname hm
    exact ⟨hextends, rfl⟩
  · obtain ⟨rfl, rfl⟩ := by simpa using h
    exact ⟨hbefore, rfl⟩

theorem onAttribute_eq_annotated {f f' : Feature} (hbefore : before.Extends s.registry)
    (h : (Feature.onAttribute (declareAttribute id)).runFrom (s, f) = (.ok (), s', f')) :
    before.Extends s'.registry ∧ f' = f.annotatedAttribute before := by
  rcases f with m | a
  · obtain ⟨rfl, rfl⟩ := by simpa using h
    exact ⟨hbefore, rfl⟩
  · rw [Feature.runFrom_onAttribute] at h
    rcases ha : (declareAttribute id).runFrom (s, a) with ⟨result, t, a'⟩
    obtain ⟨rfl, rfl, rfl⟩ := by simpa [ha] using h
    obtain ⟨hextends, rfl⟩ := declareAttribute_eq_annotated hindexed hbefore ha
    exact ⟨hextends, rfl⟩

/-- The registration of the features of a class annotates all of them. -/
theorem declareClass_eq_annotated {c c' : Class} (hbefore : before.Extends s.registry)
    (hname : before.name? id = some className)
    (h : (declareClass id).runFrom (s, c) = (.ok (), s', c')) :
    before.Extends s'.registry ∧
      c' = { c with features := c.features.map (Feature.annotated before className) } := by
  -- the methods are annotated in one pass and the attributes in the next
  obtain ⟨⟨⟩, ⟨t, d⟩, hmethods, hattributes⟩ := Step.runFrom_bind_eq_ok.mp h
  obtain ⟨ht, rfl⟩ := Class.eachFeature_eq_map (I := fun s => before.Extends s.registry)
    (fun _ _ _ _ hs => onMethod_eq_annotated hindexed hs hname) hbefore hmethods
  obtain ⟨hs', rfl⟩ := Class.eachFeature_eq_map (I := fun s => before.Extends s.registry)
    (fun _ _ _ _ hs => onAttribute_eq_annotated hindexed hs) ht hattributes
  refine ⟨hs', ?_⟩
  simp only [List.map_map, Function.comp_def, Feature.annotatedAttribute_annotatedMethod]

end Signature

/-! ### The phases in front of the bodies -/

/-- The names of the classes do not depend on what else is known of them. -/
theorem Registry.name?_listing {entry : Nat → Class → ClassDef} {classes : List Class}
    (hname : ∀ i c, (entry i c).name = c.name) (id : ClassId) :
    (listing entry classes).name? id = (listing Class.entry classes).name? id := by
  by_cases hbuiltin : id.index < builtin.size
  · rw [name?, name?, class?_listing_of_lt hbuiltin, class?_listing_of_lt hbuiltin]
  · obtain ⟨i, rfl⟩ := exists_classId_of_le (Nat.le_of_not_lt hbuiltin)
    rw [name?, name?, class?_listing, class?_listing, Option.map_map, Option.map_map]
    congr 1
    funext c
    exact hname i c

/-- The registry of the names and parents of a program annotates a class as its table does. -/
theorem Program.annotated_of_linked {p : Program} {links : Registry} {i : Nat} {c : Class}
    (hlinks : links = .listing (Class.linked p.names) p.classes) (hextends : links.Extends p.table)
    (hcoherent : p.table.Coherent) (hc : p.classes[i]? = some c) :
    { c with
      features := c.features.map (Feature.annotated links c.name)
      recordedParent := (links.parent? (Analysis.classId i)).bind links.name? } =
      c.annotated p.table := by
  -- the parents are linked before the features are registered, which makes no difference to labels
  have hfeatures : c.features.map (Feature.annotated p.table c.name) =
      c.features.map (Feature.annotated links c.name) :=
    have hindexed : links.Indexed := hlinks ▸ Registry.indexed_listing fun _ _ => rfl
    List.map_congr_left fun f _ =>
      (Registry.RecordsAs.of_extends hindexed hextends).annotated_feature c.name f
  have hfind : p.table.find? c.name = some (Analysis.classId i) :=
    hcoherent.find?_name (class?_table hc)
  have hparent : links.parent? (Analysis.classId i) = p.table.parent? (Analysis.classId i) := by
    rw [hlinks, Registry.parent?, Registry.parent?, class?_table hc,
      Registry.class?_listing_of_getElem? _ hc]
    rfl
  have hnames : links.name? = p.table.name? := by
    funext id
    rw [hlinks, table]
    exact (Registry.name?_listing (fun _ _ => rfl) id).trans
      (Registry.name?_listing (fun _ _ => rfl) id).symm
  rw [Class.annotated, hfeatures, hfind, Option.bind_some, ← hparent, ← hnames]

/-- Behind the declarations, the classes of a program are annotated as its table says. -/
theorem Analysis.classes_of_declare {p : Program} {r : Run}
    (h : declare.runFrom (start p) = (.ok (), r)) :
    r.program.classes = p.classes.map (Class.annotated p.table) := by
  have hdeclarations : p.declarations = .ok r.registry := by
    rw [Program.declarations, h]
    rfl
  obtain ⟨-, htable⟩ := Program.declarations_eq_ok_iff.mp hdeclarations
  have hcoherent : p.table.Coherent := htable ▸ Program.coherent_of_declarations hdeclarations
  have hdeclaring := declaring p
  rw [h] at hdeclaring
  cases hdeclaring with
  | @signed s _ t classes hbuild hsignatures log =>
    dsimp only at htable ⊢
    obtain ⟨-, hs⟩ := (Hierarchy.runFrom_build_eq_ok_iff #[] s rfl).mp hbuild
    obtain ⟨hbuilt, hnames⟩ := Hierarchy.coherent_of_build hbuild
    have hname (i : Nat) (c : Class) (hc : (withParents s.registry p.classes)[i]? = some c) :
        s.registry.name? (classId i) = some c.name := by
      rw [withParents, List.getElem?_mapIdx] at hc
      obtain ⟨d, hd, rfl⟩ := Option.map_eq_some_iff.mp hc
      exact hnames i d hd
    -- the parents are recorded first, and the features in a run over the result
    obtain ⟨hextends, rfl⟩ := Step.eachFrom_eq_map (I := fun t => s.registry.Extends t.registry)
      (f := fun c => { c with features := c.features.map (Feature.annotated s.registry c.name) })
      (fun i c t t' c' hc ht hc' => by
        rw [Nat.zero_add] at hc'
        exact Signature.declareClass_eq_annotated hbuilt.indexed ht (hname i c hc) hc')
      (.refl s.registry) hsignatures
    rw [htable] at hextends
    refine List.ext_getElem? fun i => ?_
    rw [List.getElem?_map, withParents, List.getElem?_mapIdx, List.getElem?_map, Option.map_map]
    cases hc : p.classes[i]? with
    | none => rfl
    | some c =>
      have hlinks : s.registry = .listing (Class.linked p.names) p.classes := by rw [hs]; rfl
      exact congrArg some (Program.annotated_of_linked (c := c) hlinks hextends hcoherent hc)

end Lcpl
