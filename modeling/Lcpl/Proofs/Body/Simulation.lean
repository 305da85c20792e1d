import Lcpl.Proofs.Body.Visiting

/-!
# Every rule, on the arena and on terms

Each rule of `Body.elaborate` runs in lockstep with the rule of `Visit.rule` for the same form. A
rule that succeeds ends with slots that read as the parts of the elaborated form.

## Main definitions

* `Visiting.Finished` — what the two rules have arrived at

## Main results

* `Visiting.lockstep_rule` — the rule for every form
-/

namespace Lcpl.Body.Visiting

open Step (Lockstep)

variable {ι : Type} {v : Visiting ι} {recur : ExprId → Body Ty}
variable {slots pending parts : List (ExprId × Term ι)} {id : ExprId} {t : Term ι}

/-- The rule has succeeded on both sides: the types are the same, and the two forms are one over the
slots, together with the parts that were never visited. -/
def Finished (v : Visiting ι) (r : Expr × Ty) (r' : Form (Term ι) × Ty) (s : Session)
    (w : List (Term ι)) : Prop :=
  r.2 = r'.2 ∧ ∃ form : Form (ExprId × Term ι), r.1 = form.map Prod.fst ∧ r'.1 = form.map Prod.snd ∧
    ∃ slots pending, form.children = slots ++ pending ∧ v.At slots pending s w

theorem Finished.of_at {s : Session} {w : List (Term ι)} {ty : Ty} (form : Form (ExprId × Term ι))
    (h : v.At form.children [] s w) :
    v.Finished (form.map Prod.fst, ty) (form.map Prod.snd, ty) s w :=
  ⟨rfl, form, rfl, rfl, form.children, [], (List.append_nil _).symm, h⟩

/-- The part simulates elaboration in the context of the node. -/
abbrev Simulated (v : Visiting ι) (recur : ExprId → Body Ty) (t : Term ι) : Prop :=
  Simulates v.Γ v.made v.mark recur t

/-- The elaboration of a part in the scope of the node. -/
abbrev elaborated (v : Visiting ι) (t : Term ι) : Elaborated ι := t.elaborate v.Γ v.made v.locals

/-! ### Parts in a row -/

theorem lockstep_items (hsim : ∀ p ∈ parts, v.Simulated recur p.2) (ty : Ty) :
    Lockstep v.Left (v.At slots parts) (checkItems recur ty (parts.map Prod.fst))
      (Visit.items ty (parts.map fun p => v.elaborated p.2))
      fun ty r s w => ∃ new, r = (new.map Prod.snd, ty) ∧ parts.map Prod.fst = new.map Prod.fst ∧
        v.At (slots ++ new) [] s w := by
  induction parts generalizing slots ty with
  | nil => exact .pure fun s w h => ⟨[], rfl, rfl, by simpa using h⟩
  | cons p parts ih =>
    refine At.bind_recur (hsim p (by simp)) fun ty => ?_
    dsimp only
    rw [← bind_pure (checkItems recur ty _)]
    refine .bind (ih (fun q hq => hsim q (by simp [hq])) ty) fun ty r => .pure ?_
    rintro s w ⟨new, rfl, hnew, h⟩
    exact ⟨(p.1, (v.elaborated p.2).term) :: new, rfl, by simp [hnew], by simpa using h⟩

theorem lockstep_part (hsim : v.Simulated recur t) (expected : Ty) (site : Line) :
    Lockstep v.Left (v.At slots ((id, t) :: pending)) (checkPart v.Γ recur id expected site)
      (Visit.converted v.Γ v.made (v.elaborated t) expected site)
      fun c t' => v.At (slots ++ [(c, t')]) pending :=
  At.bind_recur hsim fun ty => At.convert ty expected site

theorem lockstep_args (hsim : ∀ p ∈ parts, v.Simulated recur p.2) (line : Line)
    (params : List ParamDef) :
    Lockstep v.Left (v.At slots parts)
      (checkArgs v.Γ recur line (parts.map Prod.fst) params)
      (Visit.args v.Γ v.made line (parts.map fun p => v.elaborated p.2) params)
      fun ids terms s w => ∃ new, ids = new.map Prod.fst ∧ terms = new.map Prod.snd ∧
        v.At (slots ++ new) [] s w := by
  induction parts generalizing slots params with
  | nil =>
    cases params with
    | nil => exact .pure fun s w h => ⟨[], rfl, rfl, by simpa using h⟩
    | cons param params => exact .fault fun s w h => h.left
  | cons p parts ih =>
    cases params with
    | nil => exact .fault fun s w h => h.left
    | cons param params =>
      -- the slot of the first argument joins those in front of the rest
      refine .bind (lockstep_part (hsim p (by simp)) param.ty line) fun c t' => ?_
      refine .bind (ih (fun q hq => hsim q (by simp [hq])) params) fun ids terms => .pure ?_
      rintro s w ⟨new, rfl, rfl, h⟩
      exact ⟨(c, t') :: new, rfl, rfl, by simpa using h⟩

/-! ### Calls -/

theorem lockstep_call (hsim : ∀ p ∈ parts, v.Simulated recur p.2) (line : Line) (receiver : Ty)
    (name : String) :
    Lockstep v.Left (v.At slots parts)
      (checkCall v.Γ recur line receiver name (parts.map Prod.fst))
      (Visit.call v.Γ v.made line receiver name (parts.map fun p => v.elaborated p.2))
      fun r r' s w => r.1 = r'.1 ∧ ∃ new, r.2 = new.map Prod.fst ∧ r'.2 = new.map Prod.snd ∧
        v.At (slots ++ new) [] s w := by
  unfold checkCall Visit.call
  cases receiver.class?.bind (v.Γ.registry.lookupMethod? · name) with
  | none =>
    refine At.bind_typeName fun source => ?_
    exact .reject fun s w h => h.left
  | some method =>
    simp only [List.length_map]
    split
    · exact .bind_reject fun s w h => h.left
    · split
      · exact .bind_reject fun s w h => h.left
      · refine .bind (lockstep_args hsim line method.params) fun ids terms => .pure ?_
        rintro s w ⟨new, rfl, rfl, h⟩
        exact ⟨rfl, new, rfl, rfl, h⟩

theorem lockstep_receiver (receiver : Option (ExprId × Term ι))
    (hsim : ∀ p ∈ receiver.toList, v.Simulated recur p.2) :
    Lockstep v.Left (v.At [] (receiver.toList ++ pending))
      (checkReceiver v.Γ recur (receiver.map Prod.fst))
      (Visit.receiver v.Γ v.made (receiver.map fun p => v.elaborated p.2))
      fun r r' s w => r.2 = r'.2 ∧ v.At [(r.1, r'.1)] pending s w := by
  cases receiver with
  | some p =>
    simp only [Option.map_some, checkReceiver, Visit.receiver]
    rw [← bind_pure (Visit.part _)]
    exact At.bind_recur (hsim p (by simp)) fun ty => .pure fun s w h => ⟨rfl, h⟩
  | none =>
    refine At.bind_demand fun type => ?_
    intro s w h
    exact ⟨rfl, At.alloc [] [] (.symbol Vocabulary.receiver (some .receiver)) h v.Γ.line
      (some type) _⟩

theorem constant_methodRef {σ : Type} (Γ : Context) (method : MethodDef) :
    Step.Constant (methodRef Γ method : Step σ MethodRef)
      (match Γ.registry.name? method.owner with
        | some owner => .ok ⟨owner, method.name⟩
        | none => .error (.fault (.missingClass method.owner))) := by
  refine ⟨fun s => ?_⟩
  unfold methodRef className
  cases Γ.registry.name? method.owner <;> rfl

theorem lockstep_dispatch (line : Line) (receiver : Option (ExprId × Term ι)) (name : String)
    (hreceiver : ∀ p ∈ receiver.toList, v.Simulated recur p.2)
    (hargs : ∀ p ∈ parts, v.Simulated recur p.2) :
    Lockstep v.Left (v.At [] (receiver.toList ++ parts))
      (checkDispatch v.Γ recur line (receiver.map Prod.fst) name (parts.map Prod.fst))
      (Visit.dispatch v.Γ v.made line (receiver.map fun p => v.elaborated p.2) name
        (parts.map fun p => v.elaborated p.2)) v.Finished := by
  refine .bind (lockstep_receiver receiver hreceiver) ?_
  rintro ⟨object, ty⟩ ⟨objectTerm, ty'⟩
  refine .of_pre (fun s w h => h.1) ?_
  rintro rfl
  refine .bind ((lockstep_call hargs line ty name).mono (fun s w h => h.2) fun _ _ _ _ h => h) ?_
  rintro ⟨method, ids⟩ ⟨method', terms⟩
  refine .of_pre (fun s w h => h.1) ?_
  rintro rfl
  refine .bind_constant (constant_methodRef ..) (constant_methodRef ..) ?_ fun ref _ => .pure ?_
  · rintro s w ⟨-, new, -, -, h⟩
    exact h.left
  · rintro s w ⟨-, new, rfl, rfl, h⟩
    exact .of_at (.dispatch (some (object, objectTerm)) name new (some ref)) h

theorem lockstep_staticDispatch (line : Line) (receiver : ExprId × Term ι) (target name : String)
    (hreceiver : v.Simulated recur receiver.2) (hargs : ∀ p ∈ parts, v.Simulated recur p.2) :
    Lockstep v.Left (v.At [] (receiver :: parts))
      (checkStaticDispatch v.Γ recur line receiver.1 target name (parts.map Prod.fst))
      (Visit.staticDispatch v.Γ v.made line (v.elaborated receiver.2) target name
        (parts.map fun p => v.elaborated p.2)) v.Finished := by
  refine At.bind_recur hreceiver fun receiverTy => ?_
  refine At.bind_resolve fun targetTy _ => ?_
  dsimp only
  split
  · refine At.bind_typeName fun source => ?_
    exact .bind_reject fun s w h => h.left
  · refine At.bind_demand fun type => ?_
    refine .bind (lockstep_call hargs line targetTy name) ?_
    rintro ⟨method, ids⟩ ⟨method', terms⟩
    refine .of_pre (fun s w h => h.1) ?_
    rintro rfl
    refine .bind_constant (constant_methodRef ..) (constant_methodRef ..) ?_ fun ref _ => .pure ?_
    · rintro s w ⟨-, new, -, -, h⟩
      exact h.left
    · rintro s w ⟨-, new, rfl, rfl, h⟩
      exact .of_at (.staticDispatch (receiver.1, (v.elaborated receiver.2).term) target name new
        (some type) (some ref)) h

/-! ### Scopes -/

theorem lockstep_condition (hsim : v.Simulated recur t) (construct : String) (line : Line) :
    Lockstep v.Left (v.At [] ((id, t) :: pending)) (checkCondition recur id construct line)
      (Visit.condition (v.elaborated t) construct line)
      fun _ t' => v.At [(id, t')] pending := by
  refine At.bind_recur hsim fun ty => ?_
  dsimp only
  split
  · rw [← bind_pure (Step.reject (.conditionMustBeInt construct) line : Body Unit)]
    exact .bind_reject fun s w h => h.left
  · exact .pure fun s w h => h

theorem lockstep_conditional (line : Line) (condition thenBranch : ExprId × Term ι)
    (elseBranch : Option (ExprId × Term ι)) (hcondition : v.Simulated recur condition.2)
    (hthen : v.Simulated recur thenBranch.2)
    (helse : ∀ p ∈ elseBranch.toList, v.Simulated recur p.2) :
    Lockstep v.Left (v.At [] (condition :: thenBranch :: elseBranch.toList))
      (do
        let ty ← checkConditional v.Γ recur line condition.1 thenBranch.1 (elseBranch.map Prod.fst)
        return (.conditional condition.1 thenBranch.1 (elseBranch.map Prod.fst), ty))
      (Visit.conditional v.Γ line (v.elaborated condition.2)
        (thenBranch.2.elaborate v.Γ v.made v.locals.enter)
        (elseBranch.map fun p => p.2.elaborate v.Γ v.made v.locals.enter)) v.Finished := by
  unfold checkConditional Visit.conditional
  simp only [bind_assoc]
  refine .bind (lockstep_condition hcondition "If" line) fun _ test => ?_
  refine At.bind_inScope hthen rfl (fun s hs => by rw [← hs]) fun thenTy => ?_
  cases elseBranch with
  | none => exact .pure fun s w h => .of_at (.conditional (_, _) (_, _) none) h
  | some elseBranch =>
    simp only [Option.map_some, bind_assoc, pure_bind]
    refine At.bind_inScope (helse _ (by simp)) rfl (fun s hs => by rw [← hs]) fun elseTy => ?_
    exact .pure fun s w h => .of_at (.conditional (_, _) (_, _) (some (_, _))) h

theorem lockstep_init (init : Option (ExprId × Term ι))
    (hinit : ∀ p ∈ init.toList, v.Simulated recur p.2) (expected : Ty) (line : Line) :
    Lockstep v.Left (v.At [] (init.toList ++ pending))
      ((init.map Prod.fst).mapM fun init => checkPart v.Γ recur init expected line)
      ((init.map fun p => v.elaborated p.2).mapM fun init =>
        Visit.converted v.Γ v.made init expected line)
      fun id? t? s w => ∃ new : Option (ExprId × Term ι), id? = new.map Prod.fst ∧
        t? = new.map Prod.snd ∧ v.At new.toList pending s w := by
  cases init with
  | none => exact .pure fun s w h => ⟨none, rfl, rfl, h⟩
  | some p =>
    refine .bind (lockstep_part (hinit p (by simp)) expected line) fun c t' => .pure fun s w h => ?_
    exact ⟨some (c, t'), rfl, rfl, h⟩

/-- A definition without a scope to be seen in leaves nothing behind. -/
theorem runFrom_inScope_define (name : String) (line : Line) (declared ty : Ty) (s : Session) :
    (Body.inScope (do define name line declared; return ty)).runFrom s = (.ok ty, s) := by
  have hrun : (do define name line declared; return ty : Body Ty).runFrom
      { s with scopes := s.scopes.enter } =
        (.ok ty, { s with scopes := s.scopes.enter.define name (.letBound name line declared) }) :=
    rfl
  have hleave : (s.scopes.enter.define name (.letBound name line declared)).leave? =
      some s.scopes := (Scopes.leave?_define (by simp) name _).trans (Scopes.leave?_enter _)
  rw [runFrom_inScope hrun hleave]

theorem lockstep_localDefinition (line : Line) (name typeName : String)
    (init scope : Option (ExprId × Term ι)) (hinit : ∀ p ∈ init.toList, v.Simulated recur p.2)
    (hscope : ∀ p ∈ scope.toList, v.Simulated recur p.2) :
    Lockstep v.Left (v.At [] (init.toList ++ scope.toList))
      (checkLocal v.Γ recur line name typeName (init.map Prod.fst) (scope.map Prod.fst))
      (Visit.localDefinition v.Γ v.made line name typeName (init.map fun p => v.elaborated p.2)
        (scope.map fun p =>
          p.2.elaborate v.Γ v.made (v.Γ.scopeOf line name typeName v.locals))) v.Finished := by
  refine At.bind_resolve fun declared hresolve => ?_
  refine At.bind_demand fun type => ?_
  refine .bind (lockstep_init init hinit declared line) fun id? t? => ?_
  rintro s w ⟨new, rfl, rfl, h⟩
  -- the rest is compared from every state with these slots, not from this one only
  refine (?_ : Lockstep v.Left (v.At new.toList scope.toList) _ _ _) s w h
  have hscopeOf : v.Γ.scopeOf line name typeName v.locals =
      v.locals.enter.define name (.letBound name line declared) := by
    simp only [Context.scopeOf, hresolve]
  have hleave : (v.Γ.scopeOf line name typeName v.locals).leave? = some v.locals := by
    rw [hscopeOf, Scopes.leave?_define (by simp), Scopes.leave?_enter]
  cases scope with
  | none =>
    intro s w h
    simp only [Option.map_none]
    rw [Step.runFrom_bind_of_ok (runFrom_inScope_define ..)]
    exact .of_at (.localDefinition name typeName new none (some type))
      (by simpa [Form.children] using h)
  | some scope =>
    refine At.bind_inScope (hscope _ (by simp)) hleave (fun s hs => ?_) fun ty =>
      .pure fun s w h => ?_
    · rw [hscopeOf, ← hs]
      rfl
    · exact .of_at (.localDefinition name typeName new (some (_, _)) (some type)) h

/-! ### Assignments and operators -/

theorem lockstep_assignment (line : Line) (target : String) (hsim : v.Simulated recur t) :
    Lockstep v.Left (v.At [] [(id, t)]) (checkAssignment v.Γ recur line target id)
      (Visit.assignment v.Γ v.made v.locals line target (v.elaborated t)) v.Finished := by
  -- the definitions in force are part of the state on one side and an argument on the other
  intro s w h
  unfold checkAssignment Visit.assignment
  rw [Step.runFrom_bind_of_ok (Step.runFrom_get s), h.scopes_eq]
  refine (?_ : Lockstep v.Left (v.At [] [(id, t)]) _ _ _) s w h
  obtain ⟨target, found?⟩ := assigned v.Γ v.locals target
  cases found? with
  | none =>
    refine At.bind_demand fun owner => ?_
    exact .reject fun s w h => h.left
  | some found =>
    refine .bind (lockstep_part hsim found.ty line) fun c t' => .pure fun s w h => ?_
    exact .of_at (.assignment target (c, t') (some found.ref)) h

theorem lockstep_symbol (line : Line) (name : String) :
    Lockstep v.Left (v.At [] []) (checkSymbol v.Γ line name) (Visit.symbol v.Γ v.locals line name)
      v.Finished := by
  intro s w h
  unfold checkSymbol Visit.symbol
  rw [Step.runFrom_bind_of_ok (Step.runFrom_get s), h.scopes_eq]
  refine (?_ : Lockstep v.Left (v.At [] []) _ _ _) s w h
  cases v.Γ.lookup? v.locals name with
  | some found => exact .pure fun s w h => .of_at (.symbol name (some found.ref)) h
  | none =>
    dsimp only
    split
    · exact .pure fun s w h => .of_at (.symbol name (some .receiver)) h
    · refine At.bind_demand fun owner => ?_
      exact .reject fun s w h => h.left

theorem lockstep_rejectOperand {α β : Type} {post : α → β → Session → List (Term ι) → Prop}
    (ty other : Ty) (hmem : (id, t) ∈ slots) :
    Lockstep v.Left (v.At slots pending) (rejectOperand v.Γ id ty other)
      (Visit.rejectOperand v.Γ t ty other) post := by
  refine At.bind_line hmem fun node hline => ?_
  unfold Visit.rejectOperand
  rw [hline]
  split
  · refine At.bind_typeName fun source => ?_
    exact .reject fun s w h => h.left
  · exact .reject fun s w h => h.left

theorem lockstep_addition (line : Line) (lhs rhs : ExprId × Term ι)
    (hlhs : v.Simulated recur lhs.2) (hrhs : v.Simulated recur rhs.2) :
    Lockstep v.Left (v.At [] [lhs, rhs]) (checkAddition v.Γ recur line lhs.1 rhs.1)
      (Visit.addition v.Γ v.made line (v.elaborated lhs.2) (v.elaborated rhs.2)) v.Finished := by
  refine At.bind_recur hlhs fun lhsTy => At.bind_recur hrhs fun rhsTy => ?_
  dsimp only
  split
  · exact .pure fun s w h => .of_at (.addition (_, _) (_, _)) h
  split
  · refine .bind (At.wrapInCast [] [_] .string line) fun c t' => .pure fun s w h => ?_
    exact .of_at (.addition (c, t') (_, _)) h
  split
  · refine .bind (At.wrapInCast [_] [] .string line) fun c t' => .pure fun s w h => ?_
    exact .of_at (.addition (_, _) (c, t')) h
  split
  · exact lockstep_rejectOperand lhsTy rhsTy (by simp)
  split
  · exact lockstep_rejectOperand rhsTy lhsTy (by simp)
  · exact .fault fun s w h => h.left

theorem lockstep_widen (front back : List (ExprId × Term ι)) :
    Lockstep v.Left (v.At (front ++ [(id, t)] ++ back) pending) (widen v.Γ id)
      (Visit.widen v.Γ v.made t) fun c t' => v.At (front ++ [(c, t')] ++ back) pending := by
  have hmem : (id, t) ∈ front ++ [(id, t)] ++ back := by simp
  refine At.bind_line hmem fun node hline => ?_
  unfold Visit.widen
  rw [← hline]
  exact At.wrapInCast front back _ node.line

theorem lockstep_equality (line : Line) (lhs rhs : ExprId × Term ι)
    (hlhs : v.Simulated recur lhs.2) (hrhs : v.Simulated recur rhs.2) :
    Lockstep v.Left (v.At [] [lhs, rhs])
      (do return (← checkEquality v.Γ recur line lhs.1 rhs.1, Ty.int))
      (do
        return (← Visit.equality v.Γ v.made line (v.elaborated lhs.2) (v.elaborated rhs.2), Ty.int))
      v.Finished := by
  refine .bind (?_ : Lockstep _ _ _ _ fun e f s w => v.Finished (e, .int) (f, .int) s w)
    fun _ _ => .pure fun s w h => h
  refine At.bind_recur hlhs fun lhsTy => At.bind_recur hrhs fun rhsTy => ?_
  dsimp only
  -- at most one side is converted: a number to a text, or an object to `Object`
  split
  · exact .pure fun s w h => .of_at (.equality (_, _) (_, _)) h
  split
  · refine .bind (At.wrapInCast [] [_] .string line) fun c t' => .pure fun s w h => ?_
    exact .of_at (.equality (c, t') (_, _)) h
  split
  · refine .bind (At.wrapInCast [_] [] .string line) fun c t' => .pure fun s w h => ?_
    exact .of_at (.equality (_, _) (c, t')) h
  split
  · exact .reject fun s w h => h.left
  split
  · exact .pure fun s w h => .of_at (.equality (_, _) (_, _)) h
  split
  · refine .bind (lockstep_widen [] [_]) fun c t' => .pure fun s w h => ?_
    exact .of_at (.equality (c, t') (_, _)) h
  split
  · refine .bind (lockstep_widen [_] []) fun c t' => .pure fun s w h => ?_
    exact .of_at (.equality (_, _) (c, t')) h
  · exact .pure fun s w h => .of_at (.equality (_, _) (_, _)) h

theorem lockstep_binary (line : Line) (operator : BinaryOperator) (lhs rhs : ExprId × Term ι)
    (hlhs : v.Simulated recur lhs.2) (hrhs : v.Simulated recur rhs.2) :
    Lockstep v.Left (v.At [] [lhs, rhs])
      (do
        checkBinary v.Γ recur line operator lhs.1 rhs.1
        return (.binary operator lhs.1 rhs.1, .int))
      (Visit.binary v.Γ line operator (v.elaborated lhs.2) (v.elaborated rhs.2)) v.Finished := by
  unfold checkBinary Visit.binary Visit.number
  simp only [bind_assoc]
  refine At.bind_recur hlhs fun lhsTy => At.bind_recur hrhs fun rhsTy => At.bind_emit ?_
  dsimp only
  -- the left operand is looked at first, also if neither is a number
  by_cases hl : lhsTy = .int
  · by_cases hr : rhsTy = .int
    · simp only [hl, hr, ne_eq, not_true_eq_false, if_false, pure_bind]
      exact .pure fun s w h => .of_at (.binary operator (_, _) (_, _)) h
    · simp only [hl, hr, ne_eq, not_true_eq_false, not_false_eq_true, if_false, if_true, pure_bind,
        bind_assoc]
      exact At.bind_typeName fun _ => .bind_reject fun s w h => h.left
  · simp only [hl, ne_eq, not_false_eq_true, if_true, bind_assoc]
    exact At.bind_typeName fun _ => .bind_reject fun s w h => h.left

/-! ### Every form -/

/-- The rule for a form runs in lockstep with the rule for terms. -/
theorem lockstep_rule (form : Form (ExprId × Term ι)) (line : Line)
    (hsim : ∀ p ∈ form.children, v.Simulated recur p.2) :
    Lockstep v.Left (v.At [] form.children) (Body.elaborate v.Γ recur line (form.map Prod.fst))
      (Visit.rule v.Γ v.made v.locals line
        ((form.map Prod.snd).elaborate v.Γ v.made line v.locals)) v.Finished := by
  cases form with
  | block items =>
    simp only [Form.map, Form.elaborate, Term.elaborateAll_eq_map, List.map_map]
    refine .bind (lockstep_items hsim .noValue) ?_
    rintro ty ⟨terms, ty'⟩
    refine .pure ?_
    rintro s w ⟨new, hnew, hids, h⟩
    obtain ⟨rfl, rfl⟩ := Prod.mk.inj hnew
    rw [show items.map Prod.fst = new.map Prod.fst from hids]
    exact .of_at (.block new) h
  | localDefinition name typeName init scope =>
    simp only [Form.map, Form.elaborate, Term.elaborate?_eq_map, Option.map_map]
    exact lockstep_localDefinition line name typeName init scope
      (fun p hp => hsim p (List.mem_append_left _ hp))
      (fun p hp => hsim p (List.mem_append_right _ hp))
  | dispatch receiver name args =>
    simp only [Form.map, Form.elaborate, Term.elaborate?_eq_map, Option.map_map,
      Term.elaborateAll_eq_map, List.map_map]
    exact lockstep_dispatch line receiver name
      (fun p hp => hsim p (List.mem_append_left _ hp))
      (fun p hp => hsim p (List.mem_append_right _ hp))
  | staticDispatch receiver className name args =>
    simp only [Form.map, Form.elaborate, Term.elaborateAll_eq_map, List.map_map]
    exact lockstep_staticDispatch line receiver className name
      (hsim _ List.mem_cons_self) (fun p hp => hsim p (List.mem_cons_of_mem _ hp))
  | conditional condition thenBranch elseBranch =>
    simp only [Form.map, Form.elaborate, Term.elaborate?_eq_map, Option.map_map]
    exact lockstep_conditional line condition thenBranch elseBranch
      (hsim _ (by simp [Form.children])) (hsim _ (by simp [Form.children]))
      (fun p hp => hsim p (List.mem_cons_of_mem _ (List.mem_cons_of_mem _ hp)))
  | whileLoop condition body =>
    refine .bind (lockstep_condition (hsim _ (by simp [Form.children])) "While" line)
      fun _ test => ?_
    refine At.bind_inScope (hsim _ (by simp [Form.children])) rfl (fun s hs => by rw [← hs])
      fun bodyTy => ?_
    exact .pure fun s w h => .of_at (.whileLoop (_, _) (_, _)) h
  | cast typeName operand =>
    simp only [Form.map, Form.elaborate, Body.elaborate, Visit.rule]
    cases v.Γ.registry.resolve? typeName with
    | some target =>
      refine At.bind_recur (hsim _ (by simp [Form.children])) fun ty => ?_
      exact .pure fun s w h => .of_at (.cast typeName (_, _)) h
    | none =>
      -- the operand is not visited, and keeps its slot among the pending ones
      refine At.bind_emit (.pure fun s w h => ?_)
      exact ⟨rfl, .cast typeName operand, rfl, rfl, [], [operand], rfl, h⟩
  | newObject typeName =>
    refine At.bind_resolve fun ty _ => ?_
    dsimp only
    split
    · exact .bind_reject fun s w h => h.left
    · exact .pure fun s w h => .of_at (.newObject typeName) h
  | substring subject first last =>
    refine At.bind_recur (hsim _ (by simp [Form.children])) fun subjectTy => ?_
    refine At.bind_recur (hsim _ (by simp [Form.children])) fun firstTy => ?_
    refine At.bind_recur (hsim _ (by simp [Form.children])) fun lastTy => ?_
    dsimp only
    split
    · exact At.bind_emit (.pure fun s w h => .of_at (.substring (_, _) (_, _) (_, _)) h)
    · exact .pure fun s w h => .of_at (.substring (_, _) (_, _) (_, _)) h
  | assignment target value =>
    exact lockstep_assignment line target (hsim _ (by simp [Form.children]))
  | addition lhs rhs =>
    exact lockstep_addition line lhs rhs (hsim _ (by simp [Form.children]))
      (hsim _ (by simp [Form.children]))
  | binary operator lhs rhs =>
    exact lockstep_binary line operator lhs rhs (hsim _ (by simp [Form.children]))
      (hsim _ (by simp [Form.children]))
  | unary operator operand =>
    refine At.bind_recur (hsim _ (by simp [Form.children])) fun ty => ?_
    dsimp only
    split
    · exact At.bind_emit (.pure fun s w h => .of_at (.unary operator (_, _)) h)
    · exact .pure fun s w h => .of_at (.unary operator (_, _)) h
  | equality lhs rhs =>
    exact lockstep_equality line lhs rhs (hsim _ (by simp [Form.children]))
      (hsim _ (by simp [Form.children]))
  | symbol name => exact lockstep_symbol line name
  | intConstant value => exact .pure fun s w h => .of_at (.intConstant value) h
  | stringConstant value => exact .pure fun s w h => .of_at (.stringConstant value) h
  | voidConstant => exact .pure fun s w h => .of_at .voidConstant h

end Lcpl.Body.Visiting
