import Lcpl.Proofs.Term.Sound

/-!
# Elaboration is idempotent

A well-typed term elaborates to itself: each rule recognises what it has made. Elaboration leaves a
well typed term after a success. After a failure it leaves a term on which it fails in the same
place, for the parts in front of that place are settled. So a second elaboration ends as the first.

Names have to mean the same the second time. An assignment to a qualified target loses the
qualification, and a receiver that was made is named `self`: neither may occur with another meaning
(`Naming.Plain`, `Context.SelfFree`).

## Main definitions

* `Visit.Yields` — a rule that yields a known result
* `Naming.Plain`, `Context.SelfFree` — names that keep their meaning

## Main results

* `Term.WellTyped.elaborate_eq` — a well-typed term elaborates to itself
* `Form.elaborate_refill` — what a failed rule leaves is elaborated like what it found
* `Term.elaborate_elaborate` — elaboration is idempotent
-/

namespace Lcpl

variable {ι : Type}

/-! ### Names that keep their meaning -/

/-- No assignment is qualified, and no local definition is named `self`. Symbols may be. -/
structure Naming.Plain (N : Naming) : Prop where
  target : ∀ name, N.target name → Body.qualified? name = none
  bound : ∀ name, N.bound name → name ≠ Vocabulary.receiver
  used : N.used Vocabulary.receiver

/-- No variable is named `self`. -/
def Context.SelfFree (Γ : Context) (locals : Scopes String Variable) : Prop :=
  Γ.lookup? locals Vocabulary.receiver = none

namespace Context

variable {Γ : Context} {locals : Scopes String Variable}

theorem SelfFree.enter (h : Γ.SelfFree locals) : Γ.SelfFree locals.enter := h

theorem SelfFree.scopeOf (h : Γ.SelfFree locals) (line : Line) {name : String}
    (hname : name ≠ Vocabulary.receiver) (typeName : String) :
    Γ.SelfFree (Γ.scopeOf line name typeName locals) := by
  have hfind : (Γ.scopeOf line name typeName locals).find? Vocabulary.receiver =
      locals.find? Vocabulary.receiver := by
    unfold Context.scopeOf
    split
    · rw [Scopes.find?_define, if_neg (by simpa using hname.symm), Scopes.find?_enter]
    · rw [Scopes.find?_enter]
  unfold SelfFree lookup?
  rw [hfind]
  exact h

end Context

/-! ### Rules that yield a known result -/

/-- An elaboration that changed nothing. -/
def Elaborated.settled (p : Term ι × Ty) : Elaborated ι := ⟨.ok p.2, p.1⟩

namespace Visit

variable {α β : Type} {Γ : Context} {made : ι} {locals : Scopes String Variable} {line site : Line}

/-- From every list of visited parts, the step yields `a`. -/
def Yields (step : Visit ι α) (a : α) : Prop := ∀ w, ∃ w', step.runFrom w = (.ok a, w')

theorem yields_pure (a : α) : Yields (pure a : Visit ι α) a := fun w => ⟨w, rfl⟩

theorem Yields.bind {step : Visit ι α} {next : α → Visit ι β} {a : α} {b : β} (h : Yields step a)
    (hnext : Yields (next a) b) : Yields (step >>= next) b := by
  intro w
  obtain ⟨w', hw'⟩ := h w
  obtain ⟨w'', hw''⟩ := hnext w'
  exact ⟨w'', (Step.runFrom_bind_of_ok hw').trans hw''⟩

theorem yields_part (p : Term ι × Ty) : Yields (part (.settled p)) p :=
  fun _ => ⟨_, runFrom_part ..⟩

theorem yields_demand {f : Fault} {value? : Option α} {value : α} (h : value? = some value) :
    Yields (Step.demand f value? : Visit ι α) value := by
  subst h
  exact yields_pure value

theorem yields_resolve {name : String} {ty : Ty} (h : Γ.registry.resolve? name = some ty) :
    Yields (Body.resolve Γ name line : Visit ι Ty) ty := by
  unfold Body.resolve
  rw [h]
  exact yields_pure ty

theorem yields_methodRef {receiver : Ty} {name : String} {method : MethodDef} {ref : MethodRef}
    (h : Γ.Calls receiver name method ref) :
    Yields (Body.methodRef Γ method : Visit ι MethodRef) ref := by
  refine (yields_demand h.className).bind ?_
  rw [h.name_eq]
  exact yields_pure ref

theorem yields_converted {p : Term ι × Ty} {expected : Ty} (h : p.2.Fits expected) :
    Yields (converted Γ made (.settled p) expected site) p.1 := by
  obtain ⟨t, ty⟩ := p
  refine (yields_part (t, ty)).bind ?_
  dsimp only [convert]
  rw [Registry.conversion?_eq_keep_iff.mpr h]
  exact yields_pure t

theorem yields_items (ps : List (Term ι × Ty)) (ty : Ty) :
    Yields (items ty (ps.map .settled)) (ps.map Prod.fst, (ps.getLast?.map Prod.snd).getD ty) := by
  induction ps generalizing ty with
  | nil => exact yields_pure _
  | cons p ps ih =>
    refine (yields_part p).bind ((ih p.2).bind ?_)
    have hlast : ((p :: ps).getLast?.map Prod.snd).getD ty =
        (ps.getLast?.map Prod.snd).getD p.2 := by
      rw [List.getLast?_cons]
      cases ps.getLast? <;> rfl
    rw [hlast]
    exact yields_pure _

theorem yields_args {ps : List (Term ι × Ty)} {params : List ParamDef}
    (h : List.Forall₂ (fun arg param => arg.2.Fits param.ty) ps params) :
    Yields (args Γ made line (ps.map .settled) params) (ps.map Prod.fst) := by
  induction h with
  | nil => exact yields_pure _
  | cons hfits hall ih => exact (yields_converted hfits).bind (ih.bind (yields_pure _))

theorem yields_call {receiver : Ty} {name : String} {method : MethodDef} {ref : MethodRef}
    {ps : List (Term ι × Ty)} (hcalls : Γ.Calls receiver name method ref)
    (haccepts : method.Accepts ps) :
    Yields (call Γ made line receiver name (ps.map .settled)) (method, ps.map Prod.fst) := by
  have hlength : (ps.map Elaborated.settled).length = method.params.length := by
    rw [List.length_map, haccepts.length_eq]
  unfold call
  rw [hcalls.lookup]
  dsimp only
  rw [if_neg (by omega), if_neg (by omega)]
  exact (yields_args haccepts).bind (yields_pure _)

theorem yields_condition {p : Term ι × Ty} {construct : String} (h : p.2 = .int) :
    Yields (condition (.settled p) construct line) p.1 := by
  refine (yields_part p).bind ?_
  dsimp only
  rw [if_neg (not_not.mpr h)]
  exact yields_pure _

theorem yields_number {ty : Ty} (h : ty = .int) : Yields (number Γ ty line : Visit ι Unit) () := by
  unfold number
  rw [if_neg (not_not.mpr h)]
  exact yields_pure ()

/-- Nothing is widened a second time. -/
theorem yields_equality {lhs rhs : Term ι × Ty} (h : lhs.2.Comparable rhs.2) :
    Yields (equality Γ made line (.settled lhs) (.settled rhs)) (.equality lhs.1 rhs.1) := by
  refine (yields_part lhs).bind ((yields_part rhs).bind ?_)
  dsimp only
  by_cases heq : lhs.2 = rhs.2
  · rw [if_pos heq]
    exact yields_pure _
  obtain ⟨hl, hr, hkind⟩ := h.resolve_left heq
  rw [if_neg heq, if_neg (fun h => hl h.1), if_neg (fun h => hr h.2), if_neg (not_or.mpr ⟨hl, hr⟩)]
  split
  · exact yields_pure _
  · next hobject =>
    obtain ⟨hlclass, hrclass⟩ : lhs.2.class? = none ∧ rhs.2.class? = none := by tauto
    rw [if_neg (by simp [hlclass]), if_neg (by simp [hrclass])]
    exact yields_pure _

theorem yields_symbol {name : String} {found : Variable} (h : Γ.denoted? locals name = some found) :
    Yields (symbol Γ locals line name : Visit ι _) (.symbol name (some found.ref), found.ty) := by
  unfold symbol
  unfold Context.denoted? at h
  cases hlookup : Γ.lookup? locals name with
  | some found' =>
    rw [hlookup] at h
    obtain rfl := Option.some_inj.mp h
    exact yields_pure _
  | none =>
    rw [hlookup] at h
    dsimp only at h ⊢
    split at h
    · next hname =>
      obtain rfl := Option.some_inj.mp h
      rw [if_pos hname]
      exact yields_pure _
    · cases h

variable {N : Naming}

/-- The rule of a form that is typed already yields the form and its type. -/
theorem yields_rule (hindexed : Γ.registry.Indexed) (hN : N.Plain) (hself : Γ.SelfFree locals)
    {form : Form (Term ι × Ty)} {ty : Ty} (h : form.Typed Γ N locals ty) :
    Yields (rule Γ made locals line (form.map .settled)) (form.map Prod.fst, ty) := by
  cases form with
  | block ps =>
    obtain rfl := h
    exact (yields_items ps .noValue).bind (yields_pure _)
  | localDefinition name typeName init body =>
    obtain ⟨-, declared, hresolve, hlabel, hinit, rfl⟩ := h
    obtain ⟨type, htype, -⟩ := hindexed.exists_label ⟨typeName, hresolve⟩
    obtain rfl := hlabel.trans htype
    refine (yields_resolve hresolve).bind ((yields_demand htype).bind ?_)
    have hinit' : Yields ((init.map Elaborated.settled).mapM fun init =>
        converted Γ made init declared line) (init.map Prod.fst) := by
      cases init with
      | none => exact yields_pure _
      | some p => exact (yields_converted (hinit p rfl)).bind (yields_pure _)
    refine hinit'.bind ?_
    cases body with
    | none => exact yields_pure _
    | some p => exact (yields_part p).bind (yields_pure _)
  | dispatch receiver name args =>
    obtain ⟨object, method, ref, rfl, rfl, hcalls, haccepts, rfl⟩ := h
    refine (yields_part object).bind ((yields_call hcalls haccepts).bind ?_)
    exact (yields_methodRef hcalls).bind (yields_pure _)
  | staticDispatch object className name args =>
    obtain ⟨method, ref, rfl, hresolve, hlabel, habove, hcalls, haccepts⟩ := h
    obtain ⟨type, htype, -⟩ := hindexed.exists_label ⟨className, hresolve⟩
    obtain rfl := hlabel.trans htype
    refine (yields_part object).bind ((yields_resolve hresolve).bind ?_)
    have hkind : ¬ (decide (ty ≠ object.2) && !Γ.registry.isStrictlyAbove ty object.2) = true := by
      rcases habove with heq | habove
      · simp [heq]
      · simp [habove]
    dsimp only
    rw [if_neg hkind]
    refine (yields_demand htype).bind ((yields_call hcalls haccepts).bind ?_)
    exact (yields_methodRef hcalls).bind (yields_pure _)
  | conditional test thenBranch elseBranch =>
    obtain ⟨htest, rfl⟩ := h
    refine (yields_condition htest).bind ((yields_part thenBranch).bind ?_)
    cases elseBranch with
    | none => exact yields_pure _
    | some p => exact (yields_part p).bind (yields_pure _)
  | whileLoop test body =>
    obtain ⟨htest, rfl⟩ := h
    exact (yields_condition htest).bind ((yields_part body).bind (yields_pure _))
  | cast typeName operand =>
    simp only [Form.map, rule]
    rcases h with hresolve | ⟨hresolve, -, rfl⟩
    · rw [hresolve]
      exact (yields_part operand).bind (yields_pure _)
    · rw [hresolve]
      exact yields_pure _
  | newObject typeName =>
    obtain ⟨hresolve, hint⟩ := h
    refine (yields_resolve hresolve).bind ?_
    dsimp only
    rw [if_neg hint]
    exact yields_pure _
  | substring subject first last =>
    obtain rfl := h
    exact (yields_part subject).bind
      ((yields_part first).bind ((yields_part last).bind (yields_pure _)))
  | assignment target value =>
    obtain ⟨written, found, hwritten, hassigned, rfl, hfits, rfl⟩ := h
    -- an unqualified target is kept, and is looked up again
    obtain rfl : written = target := by
      simp only [Body.assigned, hN.target written hwritten] at hassigned
      exact (Prod.mk.inj hassigned).1
    simp only [Form.map, rule, assignment, hassigned]
    exact (yields_converted hfits).bind (yields_pure _)
  | addition lhs rhs =>
    obtain ⟨heq, rfl⟩ := h
    refine (yields_part lhs).bind ((yields_part rhs).bind ?_)
    dsimp only
    rw [if_pos heq]
    exact yields_pure _
  | binary operator lhs rhs =>
    obtain ⟨hlhs, hrhs, rfl⟩ := h
    refine (yields_part lhs).bind ((yields_part rhs).bind ?_)
    exact (yields_number hlhs).bind ((yields_number hrhs).bind (yields_pure _))
  | unary operator operand =>
    obtain rfl := h
    exact (yields_part operand).bind (yields_pure _)
  | equality lhs rhs =>
    obtain ⟨hcomparable, rfl⟩ := h
    exact (yields_equality hcomparable).bind (yields_pure _)
  | symbol name recorded =>
    have hdenoted : ∃ found, Γ.denoted? locals name = some found ∧ recorded = some found.ref ∧
        ty = found.ty := by
      rcases h with ⟨-, h⟩ | ⟨-, rfl, rfl, rfl⟩
      · exact h
      · refine ⟨⟨.object Γ.currentClass, .receiver⟩, ?_, rfl, rfl⟩
        rw [Context.denoted?, hself, if_pos rfl]
    obtain ⟨found, hfound, rfl, rfl⟩ := hdenoted
    exact yields_symbol hfound
  | intConstant value =>
    obtain rfl := h
    exact yields_pure _
  | stringConstant value =>
    obtain rfl := h
    exact yields_pure _
  | voidConstant =>
    obtain rfl := h
    exact yields_pure _

theorem yields_recorded (hindexed : Γ.registry.Indexed) (hN : N.Plain)
    (hself : Γ.SelfFree locals) {form : Form (Term ι × Ty)} {ty : Ty} {type : TypeName}
    (h : form.Typed Γ N locals ty) (hlabel : Γ.registry.label? ty = some type) :
    Yields (recorded Γ made locals line (form.map .settled)) (form.map Prod.fst, ty, type) :=
  (yields_rule hindexed hN hself h).bind ((yields_demand hlabel).bind (yields_pure _))

end Visit

variable {Γ : Context} {N : ι → Naming} {made : ι} {locals : Scopes String Variable} {t : Term ι}
variable {line : Line}

/-! ### Settled terms -/

/-- The names keep their meaning in every part. -/
theorem Context.SelfFree.of_mem_scoped {κ : Type} {form : Form κ} {naming : Naming}
    {part : κ × Option (Scopes String Variable)} {scope : Scopes String Variable}
    (hself : Γ.SelfFree locals) (hplain : naming.Plain) (hholds : naming.Holds form)
    (hpart : part ∈ (form.scoped Γ line locals).children) (hscope : part.2 = some scope) :
    Γ.SelfFree scope := by
  rcases Form.scope_of_mem_scoped hpart hscope with
    rfl | rfl | ⟨name, typeName, init, body, recordedType, rfl, rfl⟩
  · exact hself
  · exact hself.enter
  · exact hself.scopeOf line (hplain.bound name hholds) typeName

theorem Form.Typed.holds {κ : Type} {form : Form (κ × Ty)} {naming : Naming} {ty : Ty}
    (h : form.Typed Γ naming locals ty) (hplain : naming.Plain) : naming.Holds form := by
  cases form with
  | localDefinition name => exact h.1
  | assignment target value =>
    obtain ⟨written, found, hwritten, hassigned, -⟩ := h
    simp only [Body.assigned, hplain.target written hwritten] at hassigned
    obtain ⟨rfl, -⟩ := Prod.mk.inj hassigned
    exact hwritten
  | symbol name =>
    rcases h with ⟨hused, -⟩ | ⟨-, rfl, -⟩
    · exact hused
    · exact hplain.used
  | _ => trivial

/-- A part that is not checked has no value. -/
theorem Form.Typed.eq_noValue {κ : Type} {form : Form (κ × Ty)} {naming : Naming} {ty : Ty}
    {part : (κ × Ty) × Option (Scopes String Variable)} (h : form.Typed Γ naming locals ty)
    (hpart : part ∈ (form.scoped Γ line locals).children) (hnone : part.2 = none) :
    part.1.2 = .noValue := by
  cases form with
  | cast typeName operand =>
    -- the only part that may stay unchecked
    simp only [Form.scoped, Form.children, List.mem_singleton] at hpart
    subst hpart
    rcases h with hresolve | ⟨-, hvalue, -⟩
    · simp [hresolve] at hnone
    · exact hvalue
  | localDefinition name typeName init body =>
    simp only [Form.scoped, Form.children, List.mem_append, Option.mem_toList,
      Option.map_eq_some_iff] at hpart
    rcases hpart with ⟨p, -, rfl⟩ | ⟨p, -, rfl⟩
    · cases hnone
    · cases hnone
  | conditional condition thenBranch elseBranch =>
    simp only [Form.scoped, Form.children, List.mem_cons, Option.mem_toList,
      Option.map_eq_some_iff] at hpart
    rcases hpart with rfl | rfl | ⟨p, -, rfl⟩ <;> cases hnone
  | whileLoop condition body =>
    simp only [Form.scoped, Form.children, List.mem_cons, List.not_mem_nil, or_false] at hpart
    rcases hpart with rfl | rfl <;> cases hnone
  | _ =>
    simp only [Form.scoped, Form.children_map, List.mem_map] at hpart
    obtain ⟨p, -, rfl⟩ := hpart
    cases hnone

/-- A well-typed term elaborates to itself. -/
theorem Term.WellTyped.elaborate_eq {ty : Ty} (hindexed : Γ.registry.Indexed)
    (hplain : ∀ mark, (N mark).Plain) (h : t.WellTyped Γ N locals ty) (hself : Γ.SelfFree locals) :
    t.elaborate Γ made locals = ⟨.ok ty, t⟩ := by
  induction h with
  | @node locals mark line type ty form hlabel htyped hparts ih =>
    -- by induction the parts settle, each in its scope, and the one without a scope is not visited
    have hsettled : (form.map Prod.fst).elaborate Γ made line locals = form.map .settled := by
      rw [Form.elaborate_eq_map, Form.scoped_map, Form.map_map]
      conv_rhs => rw [← Form.scoped_map_fst Γ line locals form, Form.map_map]
      refine Form.map_congr fun part hpart => ?_
      obtain ⟨⟨t, ty⟩, scope?⟩ := part
      cases scope? with
      | some scope =>
        have hscope := hself.of_mem_scoped (hplain mark) (htyped.holds (hplain mark)) hpart rfl
        exact ih _ hpart scope rfl hscope
      | none =>
        obtain rfl : ty = .noValue := htyped.eq_noValue hpart rfl
        rfl
    obtain ⟨w, hw⟩ := Visit.yields_recorded hindexed (hplain mark) hself htyped hlabel []
    rw [Term.elaborate, hsettled, hw]
    rfl

/-! ### Elaborating twice -/

/-- A form has the scopes of every form that differs from it in its parts only. -/
theorem Form.scoped_eq {κ : Type} (form : Form κ)
    {other : Form (κ × Option (Scopes String Variable))}
    (h : other.map Prod.snd = (form.scoped Γ line locals).map Prod.snd) :
    (other.map Prod.fst).scoped Γ line locals = other := by
  refine Form.eq_of_map_fst_snd (Form.scoped_map_fst ..) ?_
  -- which scopes the parts are given depends on the shape alone
  have hscopes {κ : Type} (form : Form κ) : (form.scoped Γ line locals).map Prod.snd =
      ((form.map fun _ => ()).scoped Γ line locals).map Prod.snd := by
    rw [Form.scoped_map, Form.map_map]
    rfl
  have hshape : (other.map Prod.fst).map (fun _ => ()) = form.map fun _ => () := by
    have := congrArg (Form.map fun _ => ()) h
    rw [Form.map_map] at this
    rw [Form.map_map]
    refine this.trans ?_
    conv_rhs => rw [← Form.scoped_map_fst Γ line locals form, Form.map_map]
    rw [Form.map_map]
    rfl
  rw [hscopes, hshape, ← hscopes, h]

/-- Parts that a failed rule has visited are elaborated like the parts that they were. -/
theorem Form.elaborate_refill {form : Form (Term ι)} {front rest : List (Elaborated ι)}
    (hparts : ∀ part ∈ (form.scoped Γ line locals).children,
      (part.1.elaborateIn Γ made part.2).term.elaborateIn Γ made part.2 =
        part.1.elaborateIn Γ made part.2)
    (hfront : (form.elaborate Γ made line locals).children = front ++ rest) :
    (form.refill (front.map Elaborated.term)).elaborate Γ made line locals =
      form.elaborate Γ made line locals := by
  set scopes := form.scoped Γ line locals
  set run : Term ι × Option (Scopes String Variable) → Elaborated ι :=
    fun part => part.1.elaborateIn Γ made part.2
  have helaborate : form.elaborate Γ made line locals = scopes.map run :=
    Form.elaborate_eq_map form line
  have hvisited : front = (scopes.children.take front.length).map run := by
    rw [helaborate, Form.children_map] at hfront
    rw [List.map_take, hfront, List.take_left]
  -- the visited parts, with their scopes, in the form with its scopes
  set visited := (scopes.children.take front.length).map fun part => ((run part).term, part.2)
  have hrefill : (scopes.refill visited).map Prod.fst =
      form.refill (front.map Elaborated.term) := by
    rw [Form.map_refill, Form.scoped_map_fst]
    congr 1
    conv_rhs => rw [hvisited]
    simp [visited, Function.comp_def]
  have hscoped : (form.refill (front.map Elaborated.term)).scoped Γ line locals =
      scopes.refill visited := by
    rw [← hrefill]
    refine Form.scoped_eq form ?_
    rw [Form.map_refill]
    have : visited.map Prod.snd = (scopes.map Prod.snd).children.take front.length := by
      rw [Form.children_map, ← List.map_take]
      simp [visited, Function.comp_def]
    rw [this, Form.refill_take_children]
  have hagain : visited.map run = (scopes.map run).children.take front.length := by
    rw [Form.children_map, ← List.map_take, List.map_map]
    exact List.map_congr_left fun part hpart => hparts part (List.mem_of_mem_take hpart)
  rw [Form.elaborate_eq_map, hscoped, helaborate]
  change (scopes.refill visited).map run = _
  rw [Form.map_refill, hagain, Form.refill_take_children]

/-- Elaboration is idempotent, also where it fails. -/
theorem Term.elaborate_elaborate (hΓ : Γ.Sound) (hplain : ∀ mark, (N mark).Plain)
    (hmade : (N made).made) (hN : t.Named N) (hlocals : Γ.SoundScopes locals)
    (hself : Γ.SelfFree locals) :
    (t.elaborate Γ made locals).term.elaborate Γ made locals = t.elaborate Γ made locals := by
  induction t using Term.induction generalizing locals with
  | node mark line form type ih =>
    have hgood := Term.good_elaborate hΓ hmade hN hlocals
    have hrun := Visit.ensures_node hΓ hmade hN hlocals
    cases hN with
    | node holds hnamed =>
      have hstart := Visit.seen_nil (form.elaborate Γ made line locals).children
      rw [Term.elaborate] at hgood ⊢
      rcases hran : (Visit.recorded Γ made locals line
        (form.elaborate Γ made line locals)).runFrom [] with ⟨failure | ⟨form', ty, type'⟩, w⟩
      · -- the rule fails again, after the same parts
        obtain ⟨⟨front, rest, hfront, rfl, -⟩, -⟩ := hrun.error hstart hran
        have hsettled : ∀ part ∈ (form.scoped Γ line locals).children,
            (part.1.elaborateIn Γ made part.2).term.elaborateIn Γ made part.2 =
              part.1.elaborateIn Γ made part.2 := by
          rintro ⟨part, scope?⟩ hpart
          cases scope? with
          | none => rfl
          | some scope =>
            have hmem := Form.mem_children_of_scoped hpart
            exact ih part hmem (hnamed part hmem) (hlocals.of_mem_scoped hpart rfl)
              (hself.of_mem_scoped (hplain mark) holds hpart rfl)
        simp only [Term.leave]
        rw [Term.elaborate, Form.elaborate_refill hsettled hfront, hran]
        have hlength : (front.map Elaborated.term).length ≤ form.children.length := by
          rw [← Form.length_children_elaborate Γ made form line locals, hfront]
          simp
        simp only [Term.leave, Form.refill_refill hlength]
      · -- after a success the term is well typed, and keeps its form
        rw [hran] at hgood
        exact (hgood.ok ty rfl).elaborate_eq hΓ.coherent.indexed hplain hself

end Lcpl
