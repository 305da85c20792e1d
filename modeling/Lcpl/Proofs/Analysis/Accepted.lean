import Lcpl.Proofs.Arena.Reachable
import Lcpl.Proofs.Analysis.Phases

/-!
# Accepted programs

What the nodes of an accepted program record. The nodes below the root of a feature are followed
with the local definitions in force at each of them.

## Main definitions

* `Arena.Reaches` — the nodes below a root, with the local definitions in force there
* `Arena.TypedAt` — the typing rule of a node, over the types that its parts record
* `Feature.Sees`, `Feature.expected?` — the context of a feature's root, and the type it has to have

## Main results

* `Arena.Reaches.exists_wellTyped` — the nodes below a well-typed root are well typed
* `Program.typed_of_analyse` — every node of an accepted program satisfies its typing rule
-/

namespace Lcpl

variable {ι : Type}

namespace Arena

variable {a : Arena} {Γ : Context} {mark : ExprId → ι} {N : ι → Naming} {root id : ExprId}
variable {t : Term ι} {ids : List ExprId} {locals : Scopes String Variable} {ty : Ty}

/-! ### The nodes below a root -/

/-- The node is below the root, with local definitions in force. -/
inductive Reaches (Γ : Context) (a : Arena) (root : ExprId) :
    ExprId → Scopes String Variable → Prop where
  | root : Reaches Γ a root root .empty
  | part {id locals node child scope} (h : Reaches Γ a root id locals)
      (hget : a.get? id = some node)
      (hpart : (child, some scope) ∈ (node.expr.scoped Γ node.line locals).children) :
      Reaches Γ a root child scope

end Arena

theorem Form.exists_mem_scoped {κ : Type} {Γ : Context} {form : Form κ} {child : κ}
    (hchild : child ∈ form.children)
    (hcast : ∀ typeName operand, form = .cast typeName operand →
      (Γ.registry.resolve? typeName).isSome) (line : Line) (locals : Scopes String Variable) :
    ∃ scope, (child, some scope) ∈ (form.scoped Γ line locals).children := by
  cases form with
  | localDefinition name typeName init scope =>
    simp only [children, List.mem_append, Option.mem_toList] at hchild
    rcases hchild with rfl | rfl
    · exact ⟨locals, by simp [Form.scoped, children]⟩
    · exact ⟨Γ.scopeOf line name typeName locals, by simp [Form.scoped, children]⟩
  | conditional condition thenBranch elseBranch =>
    simp only [children, List.mem_cons, Option.mem_toList] at hchild
    rcases hchild with rfl | rfl | rfl
    · exact ⟨locals, by simp [Form.scoped, children]⟩
    · exact ⟨locals.enter, by simp [Form.scoped, children]⟩
    · exact ⟨locals.enter, by simp [Form.scoped, children]⟩
  | whileLoop condition body =>
    simp only [children, List.mem_cons, List.not_mem_nil, or_false] at hchild
    rcases hchild with rfl | rfl
    · exact ⟨locals, by simp [Form.scoped, children]⟩
    · exact ⟨locals.enter, by simp [Form.scoped, children]⟩
  | cast typeName operand =>
    obtain ⟨ty, hty⟩ := Option.isSome_iff_exists.mp (hcast typeName operand rfl)
    obtain rfl := List.mem_singleton.mp hchild
    exact ⟨locals, by simp [Form.scoped, children, hty]⟩
  | _ =>
    refine ⟨locals, ?_⟩
    simp only [Form.scoped, Form.children_map]
    exact List.mem_map_of_mem hchild

namespace Arena

variable {a : Arena} {Γ : Context} {mark : ExprId → ι} {N : ι → Naming} {root id : ExprId}
variable {t : Term ι} {ids : List ExprId} {locals : Scopes String Variable} {ty : Ty}

theorem Reachable.exists_reaches (h : a.Reachable Γ.registry root id) :
    ∃ locals, a.Reaches Γ root id locals := by
  induction h with
  | root => exact ⟨.empty, .root⟩
  | @part id node child _ hget hchild hcast ih =>
    obtain ⟨locals, hlocals⟩ := ih
    obtain ⟨scope, hscope⟩ := Form.exists_mem_scoped hchild hcast node.line locals
    exact ⟨scope, .part hlocals hget hscope⟩

/-- The nodes below a well-typed root are well typed, with the local definitions in force there. -/
theorem Reaches.exists_wellTyped (h : a.Reaches Γ root id locals) (hread : a.Reads mark root t ids)
    (ht : t.WellTyped Γ N .empty ty) :
    ∃ t ids ty, a.Reads mark id t ids ∧ t.WellTyped Γ N locals ty := by
  induction h with
  | root => exact ⟨t, ids, ty, hread, ht⟩
  | @part _ locals node child scope _ hget hpart ih =>
    obtain ⟨t, ids, ty, hread, ht⟩ := ih
    cases hread with
    | @node _ line type ids form hget' hparts =>
      obtain rfl := Option.some_inj.mp (hget.symm.trans hget')
      -- the part of the arena, the term at its place, and the type of that
      rw [Form.scoped_map, Form.children_map] at hpart
      obtain ⟨⟨⟨child, u⟩, scope?⟩, hmem, heq⟩ := List.mem_map.mp hpart
      obtain ⟨rfl, rfl⟩ := Prod.mk.inj heq
      obtain ⟨own, hread, -⟩ := hparts.exists_of_mem (Form.mem_children_of_scoped hmem)
      have hterm : (u, some scope) ∈ ((form.map Prod.snd).scoped Γ line locals).children := by
        rw [Form.scoped_map]
        exact Form.mem_children_map (f := fun part => (part.1.2, part.2)) hmem
      generalize hform : form.map Prod.snd = terms at ht hterm
      cases ht with
      | node typed hlabel htyped hwell =>
        rw [Form.scoped_map, Form.children_map] at hterm
        obtain ⟨⟨⟨u, uty⟩, scope?⟩, hmem, heq⟩ := List.mem_map.mp hterm
        obtain ⟨rfl, rfl⟩ := Prod.mk.inj heq
        exact ⟨u, own, uty, hread, hwell _ hmem scope rfl⟩

/-! ### What a node records -/

/-- The node satisfies the rule of its form, over the types that its parts record. A part that is
not checked may record anything. -/
def TypedAt (a : Arena) (Γ : Context) (N : Naming) (id : ExprId) (locals : Scopes String Variable) :
    Prop :=
  ∃ node ty, ∃ form : Form (ExprId × Ty), a.get? id = some node ∧ node.expr = form.map Prod.fst ∧
    a.Records Γ.registry id ty ∧ form.Typed Γ N locals ty ∧
    ∀ part ∈ (form.scoped Γ node.line locals).children, part.2.isSome →
      a.Records Γ.registry part.1.1 part.1.2

theorem Reads.records (h : a.Reads mark id t ids) (ht : t.WellTyped Γ N locals ty) :
    a.Records Γ.registry id ty := by
  obtain ⟨node, hget, -, htype⟩ := h.exists_get?
  cases ht with
  | node form hlabel => exact ⟨node, _, hget, htype, hlabel⟩

theorem Reads.typedAt (h : a.Reads mark id t ids) (ht : t.WellTyped Γ N locals ty) :
    a.TypedAt Γ (N (mark id)) id locals := by
  have hrecords := h.records ht
  cases h with
  | @node id line type ids form hget hparts =>
    generalize hform : form.map Prod.snd = terms at ht
    cases ht with
    | node typed hlabel htyped hwell =>
      -- the form of the node and the form that is typed have the same terms for parts
      have : Nonempty ((ExprId × Term ι) × (Term ι × Ty)) :=
        ⟨(id, .node (mark id) line .voidConstant none), .node (mark id) line .voidConstant none, ty⟩
      obtain ⟨both, rfl, rfl, hpairs⟩ := Form.exists_zip hform
      refine ⟨_, ty, both.map fun pair => (pair.1.1, pair.2.2), hget, ?_, hrecords, ?_, ?_⟩
      · rw [Form.map_map, Form.map_map]
        rfl
      · refine (Form.typed_congr ?_).mp htyped
        rw [Form.map_map, Form.map_map]
        rfl
      · rw [Form.scoped_map, Form.children_map]
        rintro _ hpart hscope
        obtain ⟨⟨pair, scope?⟩, hmem, rfl⟩ := List.mem_map.mp hpart
        obtain ⟨scope, rfl⟩ := Option.isSome_iff_exists.mp hscope
        have hpair := Form.mem_children_of_scoped hmem
        obtain ⟨own, hread, -⟩ := hparts.exists_of_mem (Form.mem_children_map hpair)
        rw [Form.scoped_map] at hwell
        have hterm := hwell _ (Form.mem_children_map hmem) scope rfl
        have heq : pair.1.2 = pair.2.1 := hpairs pair hpair
        exact (heq ▸ hread : a.Reads mark pair.1.1 pair.2.1 own).records hterm

end Arena

/-! ### Features -/

namespace Feature

/-- The context of a feature's root: its class, its line, and the parameters as they are
declared. -/
def Sees (registry : Registry) (id : ClassId) (Γ : Context) : Feature → Prop
  | .method m => ∃ params, Γ = ⟨registry, id, m.line, params⟩ ∧
      List.Forall₂ registry.DeclaresParam m.params params
  | .attribute a => Γ = ⟨registry, id, a.line, []⟩

/-- The type that the value of a feature's root has to have. Of a method without a return value, and
of one whose return type is unknown, nothing is expected. -/
def expected? (registry : Registry) : Feature → Option Ty
  | .method m => (registry.resolveReturn? m.returnType).filter (· ≠ .noValue)
  | .attribute a => registry.resolve? a.typeName

variable {registry : Registry} {id : ClassId} {f : Feature} {Γ : Context} {e : Expectation}
  {ty : Ty}

theorem sees_of_setting? (h : registry.Declares id f)
    (hsetting : f.setting? registry id = some (Γ, e)) :
    f.Sees registry id Γ := by
  rcases f with m | a
  · obtain ⟨method, hmethod, -, hparams⟩ := h
    rw [setting?, hmethod] at hsetting
    exact ⟨method.params, (congrArg Prod.fst (Option.some_inj.mp hsetting)).symm, hparams⟩
  · obtain ⟨attr, hattr, -⟩ := h
    rw [setting?, hattr] at hsetting
    exact (congrArg Prod.fst (Option.some_inj.mp hsetting)).symm

/-- A value that needs no conversion is of the declared type. -/
theorem fits_of_metBy (hr : registry.Coherent) (h : registry.Declares id f)
    (hsetting : f.setting? registry id = some (Γ, e)) (hty : e.MetBy ty) :
    ∀ expected ∈ f.expected? registry, ty.Fits expected := by
  intro expected hexpected
  rcases f with m | a
  · obtain ⟨method, hmethod, hreturn, -⟩ := h
    rw [setting?, hmethod] at hsetting
    obtain ⟨rfl, rfl⟩ := Prod.mk.inj (Option.some_inj.mp hsetting)
    obtain ⟨c, hc, hmem⟩ := Option.bind_eq_some_iff.mp hmethod
    have howns := hr.methods hc method (List.mem_of_find?_eq_some hmem)
    obtain ⟨hresolve, hvalue⟩ := Option.filter_eq_some_iff.mp hexpected
    rw [← hreturn, ← howns.returnTy] at hresolve
    rw [hresolve] at hty
    -- of a method without a return value nothing is expected
    cases expected with
    | noValue => simp at hvalue
    | _ => exact hty
  · obtain ⟨attr, hattr, htype⟩ := h
    rw [setting?, hattr] at hsetting
    obtain ⟨rfl, rfl⟩ := Prod.mk.inj (Option.some_inj.mp hsetting)
    obtain ⟨c, hc, hmem⟩ := Option.bind_eq_some_iff.mp hattr
    have howns := hr.attributes hc attr (List.mem_of_find?_eq_some hmem)
    have hexpected : registry.resolve? a.typeName = some expected := hexpected
    rw [← htype, howns.type] at hexpected
    obtain rfl := Option.some_inj.mp hexpected
    exact hty

end Feature

/-- The root of a checked feature is well typed in the feature's context. -/
theorem Bodies.Checked.exists_wellTyped {b : Bodies ι} {id : ClassId} {a : Arena} {f : Feature}
    {ids : List ExprId} {root : ExprId} (h : b.Checked id a f ids) (hroot : f.root = some root) :
    ∃ Γ t ty, f.Sees b.registry id Γ ∧ a.Reads b.mark root t ids ∧
      t.WellTyped Γ b.naming .empty ty ∧
      ∀ expected ∈ f.expected? b.registry, ty.Fits expected := by
  rcases h.rooted with ⟨hnone, -⟩ | ⟨root', t, hroot', hread, Γ, e, ty, hsetting, ht, hty⟩
  · cases hroot.symm.trans hnone
  · obtain rfl := Option.some_inj.mp (hroot.symm.trans hroot')
    exact ⟨Γ, t, ty, Feature.sees_of_setting? h.known.declares hsetting, hread, ht,
      Feature.fits_of_metBy b.coherent h.known.declares hsetting hty⟩

theorem Feature.Sees.registry_eq {registry : Registry} {id : ClassId} {f : Feature} {Γ : Context}
    (h : f.Sees registry id Γ) : Γ.registry = registry := by
  rcases f with m | a
  · obtain ⟨params, rfl, -⟩ := h
    rfl
  · obtain rfl := h
    rfl

namespace Program

variable {p : Program} {registry : Registry} {i : Nat} {c : Class} {f : Feature} {root : ExprId}

/-- In an accepted program, every node below the root of a feature records its type, and satisfies
the typing rule of its form over the types that its parts record. The root has the type that its
feature declares. -/
theorem typed_of_analyse (hforest : p.checkForest = .ok ()) (h : p.analyse.result = .ok registry)
    (hc : p.analyse.program.classes[i]? = some c) (hf : f ∈ c.features)
    (hroot : f.root = some root) :
    ∃ Γ ty, f.Sees registry (Analysis.classId i) Γ ∧
      p.analyse.program.exprs.Records registry root ty ∧
      (∀ expected ∈ f.expected? registry, ty.Fits expected) ∧
      ∀ id, p.analyse.program.exprs.Reachable registry root id →
        ∃ locals, p.analyse.program.exprs.Reaches Γ root id locals ∧
          p.analyse.program.exprs.TypedAt Γ .any id locals := by
  have hany : ∀ id node, p.exprs.get? id = some node → Naming.any.Holds node.expr := by
    intro id node _
    cases node.expr <;> trivial
  obtain ⟨b, rfl, hnaming, -, hchecked⟩ := checked_of_analyse hforest h (fun _ => .any) ()
    (fun _ => ()) trivial (fun _ _ => rfl) hany
  obtain ⟨ids, hids⟩ := hchecked i c hc f hf
  obtain ⟨Γ, t, ty, hsees, hread, ht, hty⟩ := hids.exists_wellTyped hroot
  have hregistry := hsees.registry_eq
  refine ⟨Γ, ty, hsees, hregistry ▸ hread.records ht, hty, fun id hid => ?_⟩
  obtain ⟨locals, hlocals⟩ := Arena.Reachable.exists_reaches (hregistry ▸ hid)
  obtain ⟨t', ids', ty', hread', ht'⟩ := hlocals.exists_wellTyped hread ht
  have htyped := hread'.typedAt ht'
  rw [hnaming] at htyped
  exact ⟨locals, hlocals, htyped⟩

theorem exists_of_toBool (h : p.analyse.result.toBool = true) :
    ∃ registry, p.analyse.result = .ok registry := by
  cases hresult : p.analyse.result with
  | error failure => simp [hresult, Except.toBool] at h
  | ok registry => exact ⟨registry, rfl⟩

/-- A text that is set to numbers, first by its initial value and then by a method that calls
itself. -/
def recorder : Program where
  line := 1
  classes := [
    { line := 1, name := "Main", parent := none, recordedParent := none
      features := [
        .attribute (.declared 2 "last" "String" (some ⟨0⟩)),
        .method (.declared 3 "main" [] "String" (some ⟨4⟩))] }]
  exprs := ⟨#[
    ⟨2, .intConstant 7, none⟩,
    ⟨4, .dispatch none "main" [] none, none⟩,
    ⟨5, .intConstant 1, none⟩,
    ⟨5, .assignment "last" ⟨2⟩ none, none⟩,
    ⟨3, .block [⟨1⟩, ⟨3⟩], none⟩]⟩
  builtins := []

/-- The cast that is made for the assigned number is typed. -/
theorem typed_of_analyse_recorder :
    recorder.checkForest = .ok () ∧ ∃ registry c, recorder.analyse.result = .ok registry ∧
      recorder.analyse.program.classes[0]? = some c ∧ ∃ f ∈ c.features, f.root = some ⟨4⟩ ∧
      ∃ Γ locals, recorder.analyse.program.exprs.Reaches Γ ⟨4⟩ ⟨7⟩ locals ∧
        recorder.analyse.program.exprs.TypedAt Γ .any ⟨7⟩ locals := by
  have hforest : recorder.checkForest = .ok () := by decide +kernel
  obtain ⟨registry, hok⟩ :=
    exists_of_toBool (by decide +kernel : recorder.analyse.result.toBool = true)
  obtain ⟨c, hc, f, hf, hroot⟩ : ∃ c, recorder.analyse.program.classes[0]? = some c ∧
      ∃ f ∈ c.features, f.root = some ⟨4⟩ := by
    have : ∃ c ∈ recorder.analyse.program.classes[0]?, ∃ f ∈ c.features, f.root = some ⟨4⟩ := by
      decide +kernel
    exact this
  obtain ⟨Γ, ty, -, -, -, htyped⟩ := typed_of_analyse hforest hok hc hf hroot
  have hblock : recorder.analyse.program.exprs.get? ⟨4⟩ =
      some ⟨3, .block [⟨1⟩, ⟨3⟩], some (.object "String")⟩ := by decide +kernel
  have hassignment : recorder.analyse.program.exprs.get? ⟨3⟩ =
      some ⟨5, .assignment "last" ⟨7⟩ (some (.attribute "Main" "last")),
        some (.object "String")⟩ := by
    decide +kernel
  obtain ⟨locals, hlocals, htyped⟩ :=
    htyped ⟨7⟩ (.part (.part .root hblock (by simp [Form.children])
    nofun) hassignment (by simp [Form.children]) nofun)
  exact ⟨hforest, registry, c, hok, hc, f, hf, hroot, Γ, locals, hlocals, htyped⟩

end Program

end Lcpl
