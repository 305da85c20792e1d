import Lcpl.Proofs.Analysis.Growth
import Lcpl.Proofs.Analysis.Trees
import Lcpl.Proofs.Preserves

/-!
# Where recorded types come from

An analysis records types in the declarations of a program and at its nodes. Each of them is a type
of the registry, so a class occurs in it by a name that is built in or declared in the program.
Everything else that is recorded in an analysed program was there before.

## Main results

* `Signature.keeps_types_declareClass`, `Analysis.keeps_types_checkClass` — the declarations of a
  class, and the check of its features
* `Program.types_analyse` — the types that are recorded in an analysed program
* `Program.mem_names_of_isLabel` — the classes among them, by name
-/

namespace Lcpl

/-! ### Declarations -/

section Types

variable {P : TypeName → Prop} {registry : Registry} {id : ClassId}

/-- The receiver of a feature is recorded as its class. -/
theorem Registry.isLabel_of_name? {name : String} (h : registry.name? id = some name) :
    registry.IsLabel (.object name) := by
  obtain ⟨c, hc, rfl⟩ := Option.map_eq_some_iff.mp h
  exact ⟨.object id, by rw [label?, hc, Option.map_some]⟩

theorem Registry.name?_set {c c' : ClassDef} (hc : registry.class? id = some c)
    (hname : c'.name = c.name) (other : ClassId) :
    (registry.set id c').name? other = registry.name? other := by
  rw [name?, class?_set]
  split
  · next hother => rw [name?, hother.1, hc, Option.map_some, Option.map_some, hname]
  · rfl

/-- A class keeps its name, so all types are recorded as before. -/
theorem Registry.forall_isLabel_set {c c' : ClassDef} (h : ∀ type, registry.IsLabel type → P type)
    (hc : registry.class? id = some c) (hname : c'.name = c.name) :
    ∀ type, (registry.set id c').IsLabel type → P type :=
  fun type htype => h type (htype.of_name? (registry.name?_set hc hname))

theorem Registry.forall_label? {ty : Ty} (h : ∀ type, registry.IsLabel type → P type) :
    ∀ type ∈ (registry.label? ty).toList, P type :=
  fun type htype => h type ⟨ty, by simpa using htype⟩

theorem Registry.types_resolveParams (h : ∀ type, registry.IsLabel type → P type)
    {params : List Param} (hparams : ∀ type ∈ params.flatMap Param.types, P type) :
    ∀ type ∈ (registry.resolveParams params).2.flatMap Param.types, P type := by
  induction params with
  | nil => exact hparams
  | cons param params ih =>
    rw [resolveParams]
    split
    · exact hparams
    · rw [List.flatMap_cons, List.forall_mem_append] at hparams ⊢
      exact ⟨forall_label? h, ih hparams.2⟩

namespace Signature

theorem keeps_types_declareMethod (P : TypeName → Prop) (id : ClassId) :
    Step.Keeps (Step.Beside (fun s => ∀ type, s.registry.IsLabel type → P type)
      fun m => ∀ type ∈ (Feature.method m).types, P type) (declareMethod id) := by
  rintro ⟨⟨registry, log⟩, m⟩ ⟨hlabels, hm⟩
  dsimp only at hlabels
  obtain ⟨log', hrun⟩ := runFrom_declareMethod id registry log m
  rw [hrun]
  cases hc : registry.class? id with
  | none => exact ⟨trivial, hlabels, hm⟩
  | some c =>
    dsimp only
    by_cases htaken : (c.method? m.name).isSome
    · rw [if_pos htaken]
      exact ⟨trivial, hlabels, hm⟩
    · rw [if_neg htaken]
      simp only [Feature.types, List.forall_mem_append] at hm
      obtain ⟨⟨hparams, hreturn⟩, -⟩ := hm
      have hparams := Registry.types_resolveParams hlabels hparams
      have hself : ∀ type ∈ [Param.receiver m.line c.name].flatMap Param.types, P type := by
        have hname : registry.name? id = some c.name := by rw [Registry.name?, hc, Option.map_some]
        simpa [Param.types, Param.receiver] using hlabels _ (Registry.isLabel_of_name? hname)
      rcases hresolve : registry.resolveParams m.params with ⟨failure | defs, params⟩
      all_goals rw [hresolve] at hparams
      · refine ⟨trivial, hlabels, ?_⟩
        simp only [Feature.types, List.forall_mem_append]
        exact ⟨⟨hparams, hreturn⟩, hself⟩
      · refine ⟨Registry.forall_isLabel_set hlabels hc rfl, ?_⟩
        simp only [Feature.types, List.forall_mem_append]
        refine ⟨⟨hparams, ?_⟩, hself⟩
        -- an unknown return type leaves what is recorded
        rw [Method.returning]
        dsimp only
        split
        · exact Registry.forall_label? hlabels
        · exact hreturn

theorem keeps_types_declareAttribute (P : TypeName → Prop) (id : ClassId) :
    Step.Keeps (Step.Beside (fun s => ∀ type, s.registry.IsLabel type → P type)
      fun a => ∀ type ∈ (Feature.attribute a).types, P type) (declareAttribute id) := by
  rintro ⟨⟨registry, log⟩, a⟩ ⟨hlabels, ha⟩
  rw [runFrom_declareAttribute]
  cases registry.resolve? a.typeName with
  | none => exact ⟨trivial, hlabels, ha⟩
  | some ty =>
    have htyped : ∀ type ∈ (Feature.attribute { a with recordedType := registry.label? ty }).types,
        P type := by
      simp only [Feature.types, List.forall_mem_append] at ha ⊢
      exact ⟨Registry.forall_label? hlabels, ha.2⟩
    cases hc : registry.class? id with
    | none => exact ⟨trivial, hlabels, htyped⟩
    | some c =>
      dsimp only
      by_cases htaken : (c.attribute? a.name).isSome
      · rw [if_pos htaken]
        exact ⟨trivial, hlabels, htyped⟩
      · rw [if_neg htaken]
        exact ⟨Registry.forall_isLabel_set hlabels hc rfl, htyped⟩

theorem keeps_types_declareClass (P : TypeName → Prop) (id : ClassId) :
    Step.Keeps (Step.Beside (fun s => ∀ type, s.registry.IsLabel type → P type)
      fun c => ∀ f ∈ c.features, ∀ type ∈ f.types, P type) (declareClass id) := by
  have hmethods :=
    (keeps_types_declareMethod P id).onMethod (J := fun f => ∀ type ∈ f.types, P type)
  have hattributes := (keeps_types_declareAttribute P id).onAttribute
    (J := fun f => ∀ type ∈ f.types, P type)
  exact hmethods.eachFeature.bind fun _ => hattributes.eachFeature

end Signature

/-! ### Bodies -/

theorem Feature.types_afterRoot (f : Feature) (result : Except Failure ExprId) :
    (f.afterRoot result).types = f.types := by
  rcases result with failure | root
  · rfl
  · rcases f with m | a <;> rfl

theorem Feature.CheckRun.types {s : Checking} {f : Feature}
    {r : Except Failure Unit × Checking × Feature} (h : CheckRun registry id s f r)
    (hlabels : ∀ type, registry.IsLabel type → P type) (hf : ∀ type ∈ f.types, P type) :
    ∀ type ∈ r.2.2.types, P type := by
  cases h with
  | refused failure => exact hf
  | plain hroot => exact hf
  | @rooted root Γ e name result s' hroot hΓ hname hrun =>
    rw [types_afterRoot]
    rcases f with m | a
    · exact hf
    · simp only [Feature.types, prepared, List.forall_mem_append] at hf ⊢
      refine ⟨hf.1, ?_⟩
      simpa [Param.types, Param.receiver] using hlabels _ (Registry.isLabel_of_name? hname)

/-- The check of the features of a class records types of the registry in them. -/
theorem Analysis.keeps_types_checkClass (hlabels : ∀ type, registry.IsLabel type → P type)
    (id : ClassId) :
    Step.Keeps (Step.Beside (fun _ => True) fun c => ∀ f ∈ c.features, ∀ type ∈ f.types, P type)
      (checkClass registry id) := by
  have hmethods : Step.Keeps (Step.Beside (fun _ => True) fun f => ∀ type ∈ Feature.types f, P type)
      (Feature.onMethod (checkMethod registry id)) := by
    refine .onMethod (.of_final ?_)
    rintro ⟨s, m⟩ ⟨-, hm⟩
    exact ⟨trivial, (Feature.checkRun registry id s (.method m)).types hlabels hm⟩
  have hattributes : Step.Keeps
      (Step.Beside (fun _ => True) fun f => ∀ type ∈ Feature.types f, P type)
      (Feature.onAttribute (checkAttribute registry id)) := by
    refine .onAttribute (.of_final ?_)
    rintro ⟨s, a⟩ ⟨-, ha⟩
    exact ⟨trivial, (Feature.checkRun registry id s (.attribute a)).types hlabels ha⟩
  refine .bind (.modify fun _ hc => hc) fun _ => ?_
  exact hattributes.eachFeature.bind fun _ => hmethods.eachFeature

end Types

/-! ### Programs -/

/-- The built-in classes are shown with types of the registry. -/
theorem Registry.isLabel_of_mem_builtinClasses {registry : Registry} :
    ∀ type ∈ registry.builtinClasses.flatMap Class.types, registry.IsLabel type := by
  simp only [List.forall_mem_flatMap, Class.types]
  intro c hc f hf
  obtain ⟨d, -, rfl⟩ := List.mem_map.mp hc
  obtain ⟨m, -, rfl⟩ := List.mem_map.mp hf
  have hself : ∀ type ∈ ((registry.name? m.owner).map (Param.receiver m.line)).toList.flatMap
      Param.types, registry.IsLabel type := by
    cases hname : registry.name? m.owner with
    | none => simp
    | some name => simpa [Param.types, Param.receiver] using Registry.isLabel_of_name? hname
  have hreturn : ∀ type ∈ (m.returnTy.bind registry.label?).toList, registry.IsLabel type := by
    cases m.returnTy with
    | none => simp
    | some ty => exact forall_label? fun _ h => h
  have hparams : ∀ type ∈ (registry.nativeMethod m).params.flatMap Param.types,
      registry.IsLabel type := by
    rw [List.forall_mem_flatMap]
    intro param hparam
    obtain ⟨known, -, rfl⟩ := List.mem_map.mp hparam
    exact forall_label? fun _ h => h
  simp only [Feature.types, List.forall_mem_append]
  exact ⟨⟨hparams, hreturn⟩, hself⟩

namespace Program

variable {p : Program}

theorem isLabel_names_of_builtin {type : TypeName} (h : Registry.builtin.IsLabel type) :
    p.names.IsLabel type := by
  obtain ⟨ty, hty⟩ := h
  refine ⟨ty, ?_⟩
  cases ty with
  | object id =>
    obtain ⟨c, hc, -⟩ := Option.map_eq_some_iff.mp hty
    have hlt := Registry.lt_size_of_class? hc
    rwa [Registry.label?, names, Registry.class?_listing_of_lt hlt]
  | _ => exact hty

/-- A class that is recorded as a type of the program is built in or declared. -/
theorem mem_names_of_isLabel {name : String} (h : p.names.IsLabel (.object name)) :
    name ∈ Registry.builtin.classes.toList.map ClassDef.name ∨ name ∈ p.classes.map Class.name := by
  obtain ⟨ty, hty⟩ := h
  cases ty with
  | object id =>
    obtain ⟨d, hd, hname⟩ := Option.map_eq_some_iff.mp hty
    obtain rfl := TypeName.object.inj hname
    by_cases hlt : id.index < Registry.builtin.size
    · rw [names, Registry.class?_listing_of_lt hlt] at hd
      refine .inl (List.mem_map_of_mem ?_)
      exact Array.mem_toList_iff.mpr (Array.mem_of_getElem? hd)
    · obtain ⟨i, rfl⟩ := Registry.exists_classId_of_le (Nat.le_of_not_lt hlt)
      rw [names, Registry.class?_listing] at hd
      obtain ⟨c, hc, rfl⟩ := Option.map_eq_some_iff.mp hd
      exact .inr (List.mem_map_of_mem (List.mem_of_getElem? hc))
  | _ => cases hty

/-- The phases in front of the bodies record types of the program in its declarations. -/
theorem types_declare {P : TypeName → Prop} (hlabels : ∀ type, p.names.IsLabel type → P type)
    (hclasses : ∀ c ∈ p.classes, ∀ f ∈ c.features, ∀ type ∈ f.types, P type) :
    ∀ c ∈ (Analysis.declare.runFrom (Analysis.start p)).2.program.classes, ∀ f ∈ c.features,
      ∀ type ∈ f.types, P type := by
  have hdeclaring := Analysis.declaring p
  generalize Analysis.declare.runFrom (Analysis.start p) = ran at hdeclaring ⊢
  cases hdeclaring with
  | unbuilt => exact hclasses
  | @signed s result t classes hbuild hsignatures log =>
    obtain ⟨-, hs⟩ := (Hierarchy.runFrom_build_eq_ok_iff #[] s rfl).mp hbuild
    -- labels are names of classes, and the hierarchy names the same ones
    have hregistry : ∀ type, s.registry.IsLabel type → P type := by
      intro type htype
      rw [hs] at htype
      exact hlabels type (htype.of_name? (Registry.name?_listing fun _ _ => rfl))
    have hparents : ∀ c ∈ Analysis.withParents s.registry p.classes, ∀ f ∈ c.features,
        ∀ type ∈ f.types, P type := by
      intro c hc
      obtain ⟨i, hi, rfl⟩ := List.mem_mapIdx.mp hc
      exact hclasses p.classes[i] (List.getElem_mem hi)
    have hdeclared := Step.Preserves.final_eachFrom
      (fun k => Signature.keeps_types_declareClass P (Analysis.classId k))
      (s := ⟨s.registry, s.log.push .hierarchyResolved⟩) hregistry hparents
    rw [hsignatures] at hdeclared
    exact hdeclared.2

/-- Analysis records types of the program in its classes, whichever way it ends. -/
theorem types_classes_analyse {P : TypeName → Prop}
    (hlabels : ∀ type, p.names.IsLabel type → P type)
    (hclasses : ∀ c ∈ p.classes, ∀ f ∈ c.features, ∀ type ∈ f.types, P type) :
    ∀ c ∈ p.analyse.program.classes, ∀ f ∈ c.features, ∀ type ∈ f.types, P type := by
  have hdeclared := types_declare hlabels hclasses
  cases p.lastPhase with
  | declarations hdeclare _ h =>
    rw [hdeclare] at hdeclared
    rw [h]
    exact hdeclared
  | hierarchy hdeclare _ _ h =>
    rw [hdeclare] at hdeclared
    rw [h]
    exact hdeclared
  | @bodies result r s classes log hdeclare hr hcycle hbodies h =>
    have hregistry : ∀ type, r.registry.IsLabel type → P type :=
      fun type htype =>
        hlabels type (isLabel_of_declarations (declarations_of_declare hdeclare) htype)
    rw [hdeclare] at hdeclared
    have hchecked := Step.Preserves.final_eachFrom
      (fun k => Analysis.keeps_types_checkClass hregistry (Analysis.classId k))
      (s := ⟨p.exprs, r.log.push .hierarchyAcyclic⟩) trivial hdeclared
    rw [hbodies] at hchecked
    rw [h]
    exact hchecked.2

/-- A type that is recorded in an analysed program was recorded before, or it is a type of the
program. -/
theorem types_analyse (hforest : p.checkForest = .ok ()) :
    ∀ type ∈ p.analyse.program.types, type ∈ p.types ∨ p.names.IsLabel type := by
  have hclasses : ∀ c ∈ p.analyse.program.classes, ∀ f ∈ c.features, ∀ type ∈ f.types,
      type ∈ p.types ∨ p.names.IsLabel type := by
    refine types_classes_analyse (fun type h => .inr h) fun c hc f hf type htype => .inl ?_
    simp only [types, List.mem_append, List.mem_flatMap]
    exact .inl (.inl ⟨c, hc, List.mem_flatMap.mpr ⟨f, hf, htype⟩⟩)
  have hexprs : ∀ type ∈ p.analyse.program.exprs.nodes.toList.flatMap Node.types,
      type ∈ p.types ∨ p.names.IsLabel type := by
    intro type htype
    rcases (footprint_analyse hforest).2 type (Arena.mem_types_iff_mentions.mp htype) with h | h
    · refine .inl ?_
      simp only [types, List.mem_append]
      exact .inl (.inr (Arena.mem_types_iff_mentions.mpr h))
    · exact .inr h
  have hbuiltins : ∀ type ∈ p.analyse.program.builtins.flatMap Class.types,
      type ∈ p.types ∨ p.names.IsLabel type := by
    rw [builtins_analyse]
    intro type htype
    exact .inr (isLabel_names_of_builtin (Registry.isLabel_of_mem_builtinClasses type htype))
  rw [types, List.forall_mem_append, List.forall_mem_append]
  refine ⟨⟨?_, hexprs⟩, hbuiltins⟩
  simp only [List.forall_mem_flatMap, Class.types]
  exact hclasses

end Program

end Lcpl
