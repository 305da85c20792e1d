import Lcpl.Proofs.Analysis.Annotated
import Lcpl.Proofs.Analysis.Inheritance
import Lcpl.Proofs.Analysis.Resolution
import Lcpl.Proofs.Analysis.Scoping

/-!
# Names are lexical

In an accepted program, what is recorded of a name is what the text says: it depends on the position
of the name in the program as it was given, and on nothing that the analysis did before or
elsewhere.

The analysis changes the tree while it goes through it, so the way to a node in the program that it
leaves is not the one in the program that was given: casts have been put around parts. The scopes on
both ways are the same, and they hold the local definitions that the node stands behind.

## Main results

* `Arena.Annotates.reaches_part` — a part of a node is reached with the same scope after annotation
* `Arena.Reachable.exists_behind` — the scopes at a node hold the local definitions it stands behind
* `Program.names_resolve_lexically` — names are recorded as what they are bound to in the text
-/

namespace Lcpl

/-! ### Parts and their scopes -/

namespace Form

variable {κ : Type} {Γ : Context} {line : Line} {locals : Scopes String Variable}

/-- The scopes of the parts depend on the shape only. -/
theorem map_snd_scoped (form : Form κ) :
    (form.scoped Γ line locals).children.map Prod.snd =
      (form.shape.scoped Γ line locals).children.map Prod.snd := by
  have hbare : (form.bare.scoped Γ line locals).children =
      (form.scoped Γ line locals).children := by
    cases form <;> rfl
  rw [shape, scoped_map, children_map, List.map_map, ← hbare]
  rfl

theorem map_fst_scoped (form : Form κ) :
    (form.scoped Γ line locals).children.map Prod.fst = form.children := by
  rw [← children_map, scoped_map_fst]

end Form

theorem exists_of_forall₂_fst {α β γ : Type} {R : α → β → Prop} {xs : List (α × γ)}
    {ys : List (β × γ)} (hfst : List.Forall₂ R (xs.map Prod.fst) (ys.map Prod.fst))
    (hsnd : xs.map Prod.snd = ys.map Prod.snd) {y : β} {z : γ} (hmem : (y, z) ∈ ys) :
    ∃ x, (x, z) ∈ xs ∧ R x y := by
  induction ys generalizing xs with
  | nil => cases hmem
  | cons pair ys ih =>
    cases xs with
    | nil => cases hsnd
    | cons first xs =>
      obtain ⟨x, z'⟩ := first
      obtain ⟨hxy, hrest⟩ := List.forall₂_cons.mp hfst
      obtain ⟨hz, hrest'⟩ := List.cons.inj hsnd
      rcases List.mem_cons.mp hmem with rfl | hmem
      · obtain rfl : z' = z := hz
        exact ⟨x, List.mem_cons_self, hxy⟩
      · obtain ⟨x, hx, hR⟩ := ih hrest hrest' hmem
        exact ⟨x, List.mem_cons_of_mem _ hx, hR⟩

namespace Node

variable {node : Node} {child : ExprId} {Γ : Context} {locals : Scopes String Variable}

/-- The part behind a local definition is checked with it. -/
theorem mem_scoped_of_binds? {d : Definition} (h : node.binds? child = some d) :
    (child, some (Γ.scopeOf d.line d.name d.typeName locals)) ∈
      (node.expr.scoped Γ node.line locals).children := by
  obtain ⟨hline, init, type, hexpr⟩ := binds?_eq_some_iff.mp h
  rw [hexpr, hline]
  simp [Form.scoped, Form.children]

/-- Every other part is checked with the local definitions of its node. -/
theorem exists_mem_scoped_of_binds? (h : node.binds? child = none)
    (hchild : child ∈ node.expr.children)
    (hcast : ∀ typeName operand, node.expr = .cast typeName operand →
      (Γ.registry.resolve? typeName).isSome) :
    ∃ scope, (child, some scope) ∈ (node.expr.scoped Γ node.line locals).children ∧
      ∀ name, scope.find? name = locals.find? name := by
  cases hexpr : node.expr with
  | localDefinition name typeName init scope type =>
    -- the part that the definition binds is not this one, so it is the initial value
    have hscope : scope ≠ some child := by
      rintro rfl
      simp [binds?, hexpr] at h
    rw [hexpr] at hchild
    have hinit : init = some child := by simpa [Form.children, hscope] using hchild
    exact ⟨locals, by simp [Form.scoped, Form.children, hinit], fun _ => rfl⟩
  | _ =>
    obtain ⟨scope, hscope⟩ := Form.exists_mem_scoped hchild hcast node.line locals
    rw [hexpr] at hscope
    refine ⟨scope, hscope, ?_⟩
    rcases Form.scope_of_mem_scoped hscope rfl with rfl | rfl | ⟨_, _, _, _, _, hlet, -⟩
    · exact fun _ => rfl
    · exact fun _ => rfl
    · cases hlet

end Node

/-! ### The way to a node -/

namespace Arena

variable {a b : Arena} {registry : Registry} {Γ : Context} {W : ExprId → ClassId → Prop}
variable {id child : ExprId} {node : Node} {locals scope : Scopes String Variable}
variable {n : Nat} {k : ClassId} {expr expr' : Expr} {line : Line}

/-- A part has a slot with the same scope, whatever becomes of the expression. -/
theorem Reworks.exists_part (h : a.Reworks registry n k expr expr')
    (hpart : (child, some scope) ∈ (expr.scoped Γ line locals).children) :
    ∃ slot, (slot, some scope) ∈ (expr'.scoped Γ line locals).children ∧
      a.LeadsTo n slot child := by
  cases h with
  | slots hshape hchildren =>
    rw [← expr'.map_fst_scoped, ← expr.map_fst_scoped] at hchildren
    exact exists_of_forall₂_fst hchildren
      (by rw [Form.map_snd_scoped, hshape, ← Form.map_snd_scoped]) hpart
  | @receiver name args args' ref ref' slot hslot hargs =>
    -- the receiver was made, so the part is an argument
    have hpart : (child, some scope) ∈ args.map (·, some locals) := hpart
    have hscopes : (args'.map (·, some locals)).map Prod.snd =
        (args.map (·, some locals)).map Prod.snd := by simp [Function.comp_def, hargs.length_eq]
    obtain ⟨slot', hslot', hleads⟩ := exists_of_forall₂_fst (R := a.LeadsTo n)
      (by simpa using hargs) hscopes hpart
    exact ⟨slot', List.mem_cons_of_mem _ hslot', hleads⟩
  | qualified htarget hfront hvalue =>
    obtain ⟨rfl, hscope⟩ := Prod.mk.inj (List.mem_singleton.mp hpart)
    rw [hscope]
    exact ⟨_, List.mem_cons_self, hvalue⟩

/-- A node of the first arena is there, in the same line and reworked. -/
theorem Annotates.exists_get? (h : a.Annotates registry W b) (hget : a.get? id = some node) :
    ∃ k expr type, b.get? id = some ⟨node.line, expr, type⟩ ∧
      b.Reworks registry a.size k node.expr expr := by
  rcases h.node id node hget with hsame | ⟨k, expr, type, -, hget', hreworks⟩
  · exact ⟨.object, node.expr, node.recordedType, hsame, .refl node.expr⟩
  · exact ⟨k, expr, type, hget', hreworks⟩

end Arena

/-- The name of a type that a cast is made for resolves. -/
theorem Registry.Coherent.isSome_resolve?_of_widens {registry : Registry} (hr : registry.Coherent)
    {source target : Ty} {type : TypeName} (hwidens : registry.Widens source target)
    (hlabel : registry.label? target = some type) : (registry.resolve? type.text).isSome := by
  obtain ⟨id, rfl⟩ : ∃ id, target = .object id := by
    cases hwidens with
    | text => exact ⟨.string, rfl⟩
    | upcast => exact ⟨_, rfl⟩
  obtain ⟨c, hc, rfl⟩ := Option.map_eq_some_iff.mp hlabel
  rw [TypeName.text, resolve?, hr.find?_name hc]
  split <;> rfl

namespace Arena

variable {a b : Arena} {Γ : Context} {N : Naming} {W : ExprId → ClassId → Prop}
variable {root root' id child slot : ExprId} {node : Node} {locals scope : Scopes String Variable}

/-- What is inside of an appended cast is reached with the scope of the cast. -/
theorem LeadsTo.reaches (h : b.LeadsTo a.size slot child) (hr : Γ.registry.Coherent)
    (hannotates : a.Annotates Γ.registry W b) (hslot : b.Reaches Γ root' slot scope) :
    b.Reaches Γ root' child scope := by
  rcases h with rfl | ⟨hle, line, typeName, type, hget⟩
  · exact hslot
  · -- an appended cast names a type that resolves, so it is looked into
    cases hannotates.made slot _ hle hget with
    | cast _ _ hlabel _ hwidens =>
      obtain ⟨ty, hty⟩ := Option.isSome_iff_exists.mp (hr.isSome_resolve?_of_widens hwidens hlabel)
      exact .part hslot hget (by simp [Form.scoped, Form.children, hty])

/-- A part is reached from its node as before. -/
theorem Annotates.reaches_part (h : a.Annotates Γ.registry W b) (hr : Γ.registry.Coherent)
    (hget : a.get? id = some node)
    (hpart : (child, some scope) ∈ (node.expr.scoped Γ node.line locals).children)
    (hreaches : b.Reaches Γ root' id locals) : b.Reaches Γ root' child scope := by
  obtain ⟨k, expr, type, hget', hreworks⟩ := h.exists_get? hget
  obtain ⟨slot, hslot, hleads⟩ := hreworks.exists_part hpart
  exact hleads.reaches hr h (.part hreaches hget' hslot)

/-- A local definition stays one, of the same name and type. -/
theorem Reworks.exists_localDefinition {registry : Registry} {n : Nat} {k : ClassId} {expr' : Expr}
    {name typeName : String} {init body : Option ExprId} {type : Option TypeName}
    (h : a.Reworks registry n k (.localDefinition name typeName init body type) expr') :
    ∃ init' body' type', expr' = .localDefinition name typeName init' body' type' := by
  cases h with
  | slots hshape =>
    cases expr' with
    | localDefinition name' typeName' init' body' type' =>
      obtain ⟨rfl, rfl, -⟩ := Form.localDefinition.inj hshape
      exact ⟨init', body', type', rfl⟩
    | _ => cases hshape

theorem TypedAt.localDefinition {name typeName : String} {init body : Option ExprId}
    {type : Option TypeName} (h : a.TypedAt Γ N id locals) (hget : a.get? id = some node)
    (hexpr : node.expr = .localDefinition name typeName init body type) :
    ∃ ty, Γ.registry.resolve? typeName = some ty := by
  obtain ⟨_, ty, form, hget', hform, -, htyped, -⟩ := h
  obtain rfl := Option.some_inj.mp (hget.symm.trans hget')
  cases form with
  | localDefinition name' typeName' init' body' type' =>
    obtain ⟨-, rfl, -⟩ := Form.localDefinition.inj (hexpr.symm.trans hform)
    obtain ⟨-, declared, hdeclared, -⟩ := htyped
    exact ⟨declared, hdeclared⟩
  | _ => cases hexpr.symm.trans hform

/-- Every node that is reached stands behind local definitions, and in the annotated arena it is
reached with scopes that hold these. -/
theorem Reachable.exists_behind (h : a.Reachable Γ.registry root id) (hr : Γ.registry.Coherent)
    (hannotates : a.Annotates Γ.registry W b) (hroot : b.LeadsTo a.size root' root)
    (htyped : ∀ id locals, b.Reaches Γ root' id locals → ∃ N, b.TypedAt Γ N id locals) :
    ∃ defs locals, a.Behind root id defs ∧ b.Reaches Γ root' id locals ∧
      Γ.registry.Enters defs locals := by
  -- along the way in the given arena, the way in the annotated one is extended by the same part
  induction h with
  | root => exact ⟨[], .empty, .root, hroot.reaches hr hannotates .root, .empty⟩
  | @part id node child _ hget hchild hcast ih =>
    obtain ⟨defs, locals, hbehind, hreaches, henters⟩ := ih
    have hpart := Behind.part hbehind hget hchild
    -- only the scope of a local definition adds to what is in force
    cases hbinds : node.binds? child with
    | none =>
      rw [hbinds] at hpart
      obtain ⟨scope, hscope, hfind⟩ := Node.exists_mem_scoped_of_binds? hbinds hchild hcast
      exact ⟨defs, scope, hpart, hannotates.reaches_part hr hget hscope hreaches,
        henters.of_find? hfind⟩
    | some d =>
      rw [hbinds] at hpart
      -- the check of the local definition has resolved its type
      obtain ⟨k, expr, type, hget', hreworks⟩ := hannotates.exists_get? hget
      obtain ⟨-, init, recorded, hexpr⟩ := Node.binds?_eq_some_iff.mp hbinds
      rw [hexpr] at hreworks
      obtain ⟨init', body', type', rfl⟩ := hreworks.exists_localDefinition
      obtain ⟨N, hN⟩ := htyped id locals hreaches
      obtain ⟨ty, hty⟩ := hN.localDefinition hget' rfl
      exact ⟨d :: defs, _, hpart,
        hannotates.reaches_part hr hget (Node.mem_scoped_of_binds? hbinds) hreaches,
        henters.scopeOf hty⟩

/-- A symbol that was not made records the variable that it stands for, and its type. -/
theorem TypedAt.exists_denoted? {line : Line} {name : String} {recorded : Option VarRef}
    {type : Option TypeName} (h : a.TypedAt Γ N id locals) (hN : ¬ N.made)
    (hget : a.get? id = some ⟨line, .symbol name recorded, type⟩) :
    ∃ found known, Γ.denoted? locals name = some found ∧ recorded = some found.ref ∧
      type = some known ∧ Γ.registry.label? found.ty = some known := by
  obtain ⟨_, ty, form, hget', hform, ⟨_, known, hget'', htype, hlabel⟩, htyped, -⟩ := h
  obtain rfl := Option.some_inj.mp (hget.symm.trans hget')
  obtain rfl := Option.some_inj.mp (hget.symm.trans hget'')
  cases form with
  | symbol name' recorded' =>
    obtain ⟨rfl, rfl⟩ := Form.symbol.inj hform
    rcases htyped with ⟨-, found, hfound, hrecorded, rfl⟩ | ⟨hmade, -⟩
    · exact ⟨found, known, hfound, hrecorded, htype, hlabel⟩
    · exact absurd hmade hN
  | _ => cases hform

/-- An assignment records the variable that it sets, and its type. -/
theorem TypedAt.exists_assigned {line : Line} {target : String} {value : ExprId}
    {recorded : Option VarRef} {type : Option TypeName} (h : a.TypedAt Γ N id locals)
    (hget : a.get? id = some ⟨line, .assignment target value recorded, type⟩) :
    ∃ written found known, N.target written ∧
      Body.assigned Γ locals written = (target, some found) ∧
      recorded = some found.ref ∧ type = some known ∧ Γ.registry.label? found.ty = some known := by
  obtain ⟨_, ty, form, hget', hform, ⟨_, known, hget'', htype, hlabel⟩, htyped, -⟩ := h
  obtain rfl := Option.some_inj.mp (hget.symm.trans hget')
  obtain rfl := Option.some_inj.mp (hget.symm.trans hget'')
  cases form with
  | assignment target' value' recorded' =>
    obtain ⟨rfl, -, rfl⟩ := Form.assignment.inj hform
    obtain ⟨written, found, hwritten, hassigned, hrecorded, -, rfl⟩ := htyped
    exact ⟨written, found, known, hwritten, hassigned, hrecorded, htype, hlabel⟩
  | _ => cases hform

/-- A symbol stays one, of the same name. -/
theorem Reworks.exists_symbol {registry : Registry} {n : Nat} {k : ClassId} {expr' : Expr}
    {name : String} {recorded : Option VarRef}
    (h : a.Reworks registry n k (.symbol name recorded) expr') :
    ∃ recorded', expr' = .symbol name recorded' := by
  cases h with
  | slots hshape =>
    cases expr' with
    | symbol name' recorded' =>
      obtain ⟨rfl, -⟩ := Form.symbol.inj hshape
      exact ⟨recorded', rfl⟩
    | _ => cases hshape

/-- An assignment stays one, to the same target if this was not qualified. -/
theorem Reworks.exists_assignment {registry : Registry} {n : Nat} {k : ClassId} {expr' : Expr}
    {target : String} {value : ExprId} {recorded : Option VarRef}
    (h : a.Reworks registry n k (.assignment target value recorded) expr')
    (htarget : '.' ∉ target.toList) :
    ∃ value' recorded', expr' = .assignment target value' recorded' := by
  cases h with
  | slots hshape =>
    cases expr' with
    | assignment target' value' recorded' =>
      obtain ⟨rfl, -⟩ := Form.assignment.inj hshape
      exact ⟨value', recorded', rfl⟩
    | _ => cases hshape
  | qualified hqualified => exact absurd (hqualified ▸ by simp) htarget

end Arena

/-! ### Programs -/

theorem Body.assigned_of_plain {Γ : Context} {locals : Scopes String Variable} {target : String}
    (h : '.' ∉ target.toList) :
    Body.assigned Γ locals target = (target, Γ.lookup? locals target) := by
  rw [assigned, Site.qualified?_eq_none h]

/-- A feature declares the same whatever its annotations and its root. -/
theorem Feature.Sees.of_core {registry : Registry} {id : ClassId} {Γ : Context} {f f' : Feature}
    (h : f'.Sees registry id Γ) (hcore : f'.core = f.core) : f.Sees registry id Γ := by
  rcases f' with m' | a' <;> rcases f with m | a
  · obtain ⟨params, rfl, hparams⟩ := h
    obtain ⟨hline, -, hbare, -⟩ := Method.mk.inj (Feature.method.inj hcore)
    refine ⟨params, by rw [hline], ?_⟩
    have hdeclares : List.Forall₂ registry.DeclaresParam (m'.params.map Param.bare) params :=
      List.forall₂_map_left_iff.mpr hparams
    rw [hbare] at hdeclares
    exact (List.forall₂_map_left_iff (f := Param.bare)).mp hdeclares
  · cases hcore
  · cases hcore
  · obtain ⟨hline, -⟩ := Attribute.mk.inj (Feature.attribute.inj hcore)
    rw [Sees] at h ⊢
    rw [h, hline]

namespace Program

variable {p : Program} {registry : Registry} {i j : Nat} {c : Class} {f : Feature}
variable {root id : ExprId} {node : Node}

/-- In an accepted program, the roots are checked in the contexts of their features as they were
given, and hold what they held or casts around it. -/
theorem exists_root_of_analyse (hforest : p.checkForest = .ok ())
    (h : p.analyse.result = .ok registry) (hf : featureAt? p.classes i j = some f)
    (hroot : f.root = some root) :
    ∃ Γ root' W, f.Sees registry (Analysis.classId i) Γ ∧
      p.exprs.Annotates registry W p.analyse.program.exprs ∧
      p.analyse.program.exprs.LeadsTo p.exprs.size root' root ∧
      ∀ id locals, p.analyse.program.exprs.Reaches Γ root' id locals →
        p.analyse.program.exprs.TypedAt Γ (p.written (p.original? id)) id locals := by
  obtain ⟨b, rfl, hnaming, hmark, hchecked⟩ := checked_of_analyse hforest h p.written none
    p.original? trivial (fun x hx => if_neg (Nat.not_lt.mpr hx)) fun _ _ => holds_written
  cases course hforest with
  | early failure hcause hresult => cases hresult.symm.trans h
  | halted failure w hw hresult => cases hresult.symm.trans h
  | finished w hw hresult hprogress =>
    have hregistry : w.registry = b.registry := (checkEntry_of_map_eq_ok (hresult.symm.trans h)).2
    obtain ⟨g, hg, hbare⟩ := exists_featureAt?_of_bare hw.classes.symm hf
    obtain ⟨f', hview, hfinished⟩ := hprogress.finished i j g hg trivial
    have hrel := hfinished.rel_root
    rw [← Feature.root_bare g, hbare, Feature.root_bare, hroot] at hrel
    generalize hroot' : f'.root = root? at hrel
    cases hrel with
    | some hleads =>
      obtain ⟨c', hc', hf'⟩ := exists_of_featureAt? hview
      obtain ⟨ids, hids⟩ := hchecked i c' hc' f' hf'
      obtain ⟨Γ, t, ty, hsees, hread, ht, -⟩ := hids.exists_wellTyped hroot'
      -- the context is that of the feature as it was given, without its annotations and root
      have hcore : f'.core = f.core := by
        have := featureAt?_congr (fun _ => rfl) p.map_core_analyse i j
        rw [hview, hf] at this
        exact Option.some_inj.mp this
      refine ⟨Γ, _, _, hsees.of_core hcore, hregistry ▸ hw.base ▸ hprogress.annotates,
        hw.base ▸ hleads, fun id locals hreaches => ?_⟩
      obtain ⟨t', ids', ty', hread', ht'⟩ := hreaches.exists_wellTyped hread ht
      have htyped := hread'.typedAt ht'
      rwa [hnaming, hmark] at htyped

theorem mem_child_rootSlots (hc : p.classes[i]? = some c) (hf : f ∈ c.features)
    (hroot : f.root = some root) : root ∈ p.rootSlots.map Slot.child := by
  rw [map_child_rootSlots]
  exact List.mem_flatMap.mpr ⟨c, List.mem_append_left _ (List.mem_of_getElem? hc),
    List.mem_filterMap.mpr ⟨f, hf, hroot⟩⟩

/-- In an accepted program, names are lexical. Each node that was checked stands behind one list of
local definitions of the program as it was given. A symbol records the variable that its name stands
for there, and the type of this variable, and so does an assignment to a target that is not
qualified. -/
theorem names_resolve_lexically (hforest : p.checkForest = .ok ())
    (h : p.analyse.result = .ok registry) (hc : p.classes[i]? = some c) (hf : f ∈ c.features)
    (hroot : f.root = some root) (hreach : p.exprs.Reachable registry root id)
    (hget : p.exprs.get? id = some node) :
    ∃ defs, (∀ defs', p.exprs.Behind root id defs' ↔ defs' = defs) ∧
      (∀ name recorded, node.expr = .symbol name recorded → ∃ ref type,
        p.analyse.program.exprs.get? id = some ⟨node.line, .symbol name (some ref), some type⟩ ∧
        ∀ ref' type', p.Denotes c f defs name ref' type' ↔ ref' = ref ∧ type' = type) ∧
      ∀ target value recorded, node.expr = .assignment target value recorded →
        '.' ∉ target.toList → ∃ value' ref type,
          p.analyse.program.exprs.get? id =
            some ⟨node.line, .assignment target value' (some ref), some type⟩ ∧
          ∀ ref' type', p.Binds c f defs target ref' type' ↔ ref' = ref ∧ type' = type := by
  obtain ⟨j, hj⟩ := exists_featureAt?_of_mem hc hf
  obtain ⟨Γ, root', W, hsees, hannotates, hleads, htyped⟩ :=
    exists_root_of_analyse hforest h hj hroot
  have hdeclared := (admitted_of_analyse h).declared
  obtain rfl := eq_table_of_analyse h
  have hregistry := hsees.registry_eq
  obtain ⟨defs, locals, hbehind, hreaches, henters⟩ := (hregistry ▸ hreach).exists_behind
    (hregistry ▸ hdeclared.coherent) (hregistry ▸ hannotates) hleads
    fun id locals hreaches => ⟨_, htyped id locals hreaches⟩
  rw [hregistry] at henters
  have hnode := htyped id locals hreaches
  rw [original?, if_pos (Arena.lt_of_get? hget)] at hnode
  obtain ⟨k, expr, type, hget', hreworks⟩ := hannotates.exists_get? hget
  refine ⟨defs, fun defs' => ⟨fun hdefs' => ?_, fun heq => heq ▸ hbehind⟩, ?_, ?_⟩
  · exact behind_unique hforest (mem_child_rootSlots hc hf hroot) hdefs' hbehind
  · intro name recorded hexpr
    rw [hexpr] at hreworks
    obtain ⟨recorded', rfl⟩ := hreworks.exists_symbol
    obtain ⟨found, known, hfound, rfl, rfl, hlabel⟩ := hnode.exists_denoted? (fun h => h) hget'
    rw [hregistry] at hlabel
    exact ⟨found.ref, known, hget', hdeclared.denotes_iff hc hsees henters hfound hlabel⟩
  · intro target value recorded hexpr htarget
    rw [hexpr] at hreworks
    -- without qualification, the target that was checked is the one that was written
    obtain ⟨value', recorded', rfl⟩ := hreworks.exists_assignment htarget
    obtain ⟨written, found, known, hwritten, hassigned, rfl, rfl, hlabel⟩ :=
      hnode.exists_assigned hget'
    obtain ⟨before, value'', recorded'', hbefore, hexpr'⟩ := hwritten
    obtain rfl := Option.some_inj.mp (hget.symm.trans hbefore)
    obtain ⟨rfl, -, -⟩ := Form.assignment.inj (hexpr.symm.trans hexpr')
    rw [Body.assigned_of_plain htarget] at hassigned
    rw [hregistry] at hlabel
    exact ⟨value', found.ref, known, hget',
      hdeclared.binds_iff hc hsees henters (Prod.mk.inj hassigned).2 hlabel⟩

/-- An attribute, a parameter that hides it from a descendant, and a local definition that hides the
parameter behind it, but neither in its own initial value nor after it. -/
def eclipse : Program where
  line := 1
  classes := [
    { line := 1, name := "Base", parent := none, recordedParent := none
      features := [.attribute (.declared 2 "x" "Int" none)] },
    { line := 3, name := "Main", parent := some "Base", recordedParent := none
      features := [
        .method (.declared 4 "pick" [.declared 4 "x" "Int"] "String" (some ⟨4⟩)),
        .method (.declared 9 "main" [] "Int" (some ⟨5⟩))] }]
  exprs := ⟨#[
    ⟨5, .symbol "x" none, none⟩,
    ⟨6, .symbol "x" none, none⟩,
    ⟨5, .localDefinition "x" "String" (some ⟨0⟩) (some ⟨1⟩) none, none⟩,
    ⟨7, .symbol "x" none, none⟩,
    ⟨4, .block [⟨2⟩, ⟨3⟩], none⟩,
    ⟨9, .symbol "x" none, none⟩]⟩
  builtins := []

/-- The local definition is read behind it, and the parameter in its initial value. -/
theorem names_resolve_lexically_eclipse :
    eclipse.checkForest = .ok () ∧ ∃ registry c, ∃ f ∈ c.features,
      eclipse.analyse.result = .ok registry ∧ eclipse.classes[1]? = some c ∧ f.root = some ⟨4⟩ ∧
      (∃ defs, eclipse.exprs.Behind ⟨4⟩ ⟨1⟩ defs ∧ ∀ ref type,
        eclipse.Denotes c f defs "x" ref type ↔ ref = .letBound "x" 5 ∧ type = .object "String") ∧
      ∃ defs, eclipse.exprs.Behind ⟨4⟩ ⟨0⟩ defs ∧ ∀ ref type,
        eclipse.Denotes c f defs "x" ref type ↔ ref = .param "x" ∧ type = .int := by
  have hforest : eclipse.checkForest = .ok () := by decide +kernel
  obtain ⟨registry, hok⟩ :=
    exists_of_toBool (by decide +kernel : eclipse.analyse.result.toBool = true)
  have hlet : eclipse.exprs.Reachable registry ⟨4⟩ ⟨2⟩ :=
    .part .root rfl (show _ ∈ [_, _] from List.mem_cons_self) nofun
  have hinside : eclipse.exprs.Reachable registry ⟨4⟩ ⟨1⟩ :=
    .part hlet rfl (show _ ∈ [_, _] from List.mem_cons_of_mem _ List.mem_cons_self) nofun
  have hinit : eclipse.exprs.Reachable registry ⟨4⟩ ⟨0⟩ :=
    .part hlet rfl (show _ ∈ [_, _] from List.mem_cons_self) nofun
  have hget : eclipse.analyse.program.exprs.get? ⟨1⟩ =
      some ⟨6, .symbol "x" (some (.letBound "x" 5)), some (.object "String")⟩ := by decide +kernel
  have hget' : eclipse.analyse.program.exprs.get? ⟨0⟩ =
      some ⟨5, .symbol "x" (some (.param "x")), some .int⟩ := by decide +kernel
  obtain ⟨c, hc, f, hf, hroot⟩ : ∃ c, eclipse.classes[1]? = some c ∧
      ∃ f ∈ c.features, f.root = some ⟨4⟩ := ⟨_, rfl, _, List.mem_cons_self, rfl⟩
  refine ⟨hforest, registry, c, f, hf, hok, hc, hroot, ?_, ?_⟩
  · obtain ⟨defs, hdefs, hsymbol, -⟩ :=
      names_resolve_lexically hforest hok hc hf hroot hinside rfl
    obtain ⟨ref, type, hafter, hdenotes⟩ := hsymbol "x" none rfl
    cases hget.symm.trans hafter
    exact ⟨defs, (hdefs defs).mpr rfl, hdenotes⟩
  · obtain ⟨defs, hdefs, hsymbol, -⟩ :=
      names_resolve_lexically hforest hok hc hf hroot hinit rfl
    obtain ⟨ref, type, hafter, hdenotes⟩ := hsymbol "x" none rfl
    cases hget'.symm.trans hafter
    exact ⟨defs, (hdefs defs).mpr rfl, hdenotes⟩

end Program

end Lcpl
