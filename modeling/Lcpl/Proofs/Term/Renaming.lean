import Lcpl.Proofs.Body.Root
import Lcpl.Proofs.Registry.Renaming

/-!
# Elaboration does not depend on class numbers

A term is elaborated alike with the same classes under different numbers: what is recorded in the
term are names, so the same term is left, and its type is the same up to the number of its class.

Only successes are compared here. A failure may be a fault that mentions a number, and whether an
elaboration fails at all is known from the other direction.

## Main definitions

* `Step.Follows` — a step that yields something whenever another one does
* `Elaborated.Follows` — an elaboration that succeeds whenever another one does, with the same term

## Main results

* `Term.follows_elaborate` — the elaboration of a term
* `Expectation.elaborate_of_renames` — the elaboration of a root
-/

namespace Lcpl

/-! ### Steps that succeed together -/

namespace Step

variable {σ α β α' β' : Type}

/-- The step never yields anything. -/
def Fails (step : Step σ α) : Prop := ∀ s s' a, step.runFrom s ≠ (.ok a, s')

/-- Whenever the first step yields something, from whatever state, so does the second, and `f` gives
what it yields. -/
def Follows (f : α → β) (step : Step σ α) (step' : Step σ β) : Prop :=
  ∀ s s' a, step.runFrom s = (.ok a, s') → ∀ t, ∃ t', step'.runFrom t = (.ok (f a), t')

theorem fails_reject {error : SemanticError} {line : Line} : Fails (reject error line : Step σ α) :=
  fun _ _ _ h => nomatch congrArg Prod.fst h

theorem fails_fault {f : Fault} : Fails (fault f : Step σ α) :=
  fun _ _ _ h => nomatch congrArg Prod.fst h

theorem Fails.bind {step : Step σ α} (h : Fails step) (next : α → Step σ α') :
    Fails (step >>= next) := by
  intro s s' a hrun
  obtain ⟨b, t, hstep, -⟩ := runFrom_bind_eq_ok.mp hrun
  exact h s t b hstep

theorem fails_bind {step : Step σ α} {next : α → Step σ α'} (h : ∀ a, Fails (next a)) :
    Fails (step >>= next) := by
  intro s s' a hrun
  obtain ⟨b, t, -, hnext⟩ := runFrom_bind_eq_ok.mp hrun
  exact h b t s' a hnext

namespace Follows

variable {f : α → β} {g : α' → β'} {step : Step σ α} {step' : Step σ β}

theorem of_fails (h : Fails step) : Follows f step step' := fun s s' a hrun => (h s s' a hrun).elim

protected theorem pure {a : α} {b : β} (h : b = f a) :
    Follows f (pure a : Step σ α) (pure b : Step σ β) := by
  intro s s' a' hrun t
  obtain ⟨rfl, -⟩ := by simpa using hrun
  exact ⟨t, by rw [h]; rfl⟩

protected theorem bind {next : α → Step σ α'} {next' : β → Step σ β'} (h : Follows f step step')
    (hnext : ∀ a, Follows g (next a) (next' (f a))) :
    Follows g (step >>= next) (step' >>= next') := by
  intro s s' a hrun t
  obtain ⟨b, u, hstep, hrest⟩ := runFrom_bind_eq_ok.mp hrun
  obtain ⟨t₁, ht₁⟩ := h s u b hstep t
  obtain ⟨t', ht'⟩ := hnext b u s' a hrest t₁
  exact ⟨t', by rw [runFrom_bind_of_ok ht₁, ht']⟩

/-- A value that has to be there. -/
protected theorem demand {fault fault' : Fault} {a? : Option α} {b? : Option β}
    (h : b? = a?.map f) :
    Follows f (demand fault a? : Step σ α) (demand fault' b? : Step σ β) := by
  cases a? with
  | none => exact of_fails fails_fault
  | some a =>
    rw [h]
    exact .pure rfl

end Follows

end Step

variable {ι : Type} {π : ClassId → ClassId} {Γ Γ' : Context} {made : ι}

/-- If the first elaboration succeeds, so does the second, with the same term and, up to the number
of its class, the same type. -/
def Elaborated.Follows (π : ClassId → ClassId) (e e' : Elaborated ι) : Prop :=
  ∀ ty, e.result = .ok ty → e'.result = .ok (ty.rename π) ∧ e'.term = e.term

/-! ### Rules -/

namespace Visit

open Step (Follows)

variable {e e' lhs lhs' rhs rhs' : Elaborated ι} {es es' : List (Elaborated ι)}

/-- What corresponds to an elaborated part or form with its type. -/
def retyped {α : Type} (π : ClassId → ClassId) (r : α × Ty) : α × Ty := (r.1, r.2.rename π)

theorem follows_part (h : e.Follows π e') : Follows (retyped π) (part e) (part e') := by
  intro s s' r hrun t
  rw [runFrom_part] at hrun
  cases hresult : e.result with
  | error failure =>
    rw [hresult] at hrun
    cases hrun
  | ok ty =>
    rw [hresult] at hrun
    obtain ⟨rfl, -⟩ := by simpa [Except.map] using hrun
    obtain ⟨hresult', hterm⟩ := h ty hresult
    exact ⟨t ++ [e'.term], by rw [runFrom_part, hresult', hterm]; rfl⟩

theorem follows_items (ty : Ty) (h : List.Forall₂ (Elaborated.Follows π) es es') :
    Follows (retyped π) (items ty es) (items (ty.rename π) es') := by
  induction h generalizing ty with
  | nil => exact .pure rfl
  | cons head tail ih =>
    refine .bind (follows_part head) fun (item, ty) => ?_
    exact .bind (ih ty) fun (rest, ty) => .pure rfl

section

variable (hΓ : Γ.Renames π Γ')
include hΓ

theorem follows_label (ty : Ty) :
    Follows id (Body.label Γ ty : Visit ι TypeName)
      (Body.label Γ' (ty.rename π) : Visit ι TypeName) :=
  .demand (by rw [hΓ.registry.label?, Option.map_id, id])

theorem follows_resolve (name : String) (line : Line) :
    Follows (Ty.rename π) (Body.resolve Γ name line : Visit ι Ty) (Body.resolve Γ' name line) := by
  unfold Body.resolve
  rw [hΓ.registry.resolve?]
  cases Γ.registry.resolve? name with
  | none => exact .of_fails Step.fails_reject
  | some ty => exact .pure rfl

theorem follows_methodRef (method : MethodDef) :
    Follows id (Body.methodRef Γ method : Visit ι MethodRef)
      (Body.methodRef Γ' (method.rename π)) := by
  have hname : Follows id (Body.className Γ method.owner : Visit ι String)
      (Body.className Γ' (π method.owner)) := .demand (by rw [hΓ.registry.name?, Option.map_id, id])
  exact .bind hname fun _ => .pure rfl

omit hΓ in
theorem fails_rejectVariable {α : Type} (name : String) (line : Line) :
    Step.Fails (Body.rejectVariable Γ name line : Visit ι α) :=
  Step.fails_bind fun _ => Step.fails_reject

theorem follows_wrapInCast (operand : Term ι) (target : Ty) (line : Line) :
    Follows id (wrapInCast Γ made operand target line)
      (wrapInCast Γ' made operand (target.rename π) line) :=
  .bind (follows_label hΓ target) fun _ => .pure rfl

theorem follows_convert (term : Term ι) (source target : Ty) (site : Line) :
    Follows id (convert Γ made term source target site)
      (convert Γ' made term (source.rename π) (target.rename π) site) := by
  unfold convert
  rw [hΓ.registry.conversion?]
  rcases Γ.registry.conversion? source target with _ | _ | cast
  · exact .of_fails (Step.fails_bind fun _ => Step.fails_bind fun _ => Step.fails_reject)
  · exact .pure rfl
  · simp only [Option.map_some, Conversion.rename, Ty.rename_eq_int_iff]
    exact follows_wrapInCast hΓ term cast _

theorem follows_converted (h : e.Follows π e') (expected : Ty) (site : Line) :
    Follows id (converted Γ made e expected site) (converted Γ' made e' (expected.rename π) site) :=
  .bind (follows_part h) fun (term, ty) => follows_convert hΓ term ty expected site

theorem follows_args (line : Line) (h : List.Forall₂ (Elaborated.Follows π) es es')
    (params : List ParamDef) :
    Follows id (args Γ made line es params)
      (args Γ' made line es' (params.map (ParamDef.rename π))) := by
  induction h generalizing params with
  | nil =>
    cases params with
    | nil => exact .pure rfl
    | cons => exact .of_fails Step.fails_fault
  | cons head tail ih =>
    cases params with
    | nil => exact .of_fails Step.fails_fault
    | cons param params =>
      refine .bind (follows_converted hΓ head param.ty line) fun arg => ?_
      exact .bind (ih params) fun rest => .pure rfl

theorem follows_call (line : Line) (receiver : Ty) (name : String)
    (h : List.Forall₂ (Elaborated.Follows π) es es') :
    Follows (fun call => (call.1.rename π, call.2)) (call Γ made line receiver name es)
      (call Γ' made line (receiver.rename π) name es') := by
  unfold call
  have hlookup : (receiver.rename π).class?.bind (Γ'.registry.lookupMethod? · name) =
      (receiver.class?.bind (Γ.registry.lookupMethod? · name)).map (MethodDef.rename π) := by
    cases receiver with
    | object id => exact hΓ.registry.lookupMethod? id name
    | _ => rfl
  rw [hlookup]
  cases receiver.class?.bind (Γ.registry.lookupMethod? · name) with
  | none => exact .of_fails (Step.fails_bind fun _ => Step.fails_reject)
  | some method =>
    -- the arguments are counted before they are checked
    have hparams : (method.rename π).params.length = method.params.length := List.length_map ..
    simp only [Option.map_some, hparams, ← h.length_eq]
    split_ifs
    · exact .of_fails (Step.fails_reject.bind _)
    · exact .of_fails (Step.fails_reject.bind _)
    · exact .of_fails (Step.fails_reject.bind _)
    · exact .bind (follows_args hΓ line h method.params) fun _ => .pure rfl

theorem follows_receiver {object object' : Option (Elaborated ι)}
    (h : Option.Rel (Elaborated.Follows π) object object') :
    Follows (retyped π) (receiver Γ made object) (receiver Γ' made object') := by
  cases h with
  | some h => exact follows_part h
  | none =>
    unfold receiver
    dsimp only
    rw [hΓ.currentClass, hΓ.line]
    exact .bind (follows_label hΓ (.object Γ.currentClass)) fun _ => .pure rfl

end

theorem follows_condition (h : e.Follows π e') (construct : String) (line : Line) :
    Follows id (condition e construct line) (condition e' construct line) := by
  refine .bind (follows_part h) fun (term, ty) => ?_
  simp only [retyped, ne_eq, Ty.rename_eq_int_iff]
  split_ifs
  · exact .pure rfl
  · exact .of_fails (Step.fails_reject.bind _)

section

variable (hΓ : Γ.Renames π Γ')
include hΓ

theorem follows_localDefinition (line : Line) (name declaredType : String)
    {init init' scope scope' : Option (Elaborated ι)}
    (hinit : Option.Rel (Elaborated.Follows π) init init')
    (hscope : Option.Rel (Elaborated.Follows π) scope scope') :
    Follows (retyped π) (localDefinition Γ made line name declaredType init scope)
      (localDefinition Γ' made line name declaredType init' scope') := by
  refine .bind (follows_resolve hΓ declaredType line) fun declared => ?_
  refine .bind (follows_label hΓ declared) fun type => ?_
  have hvalue : Follows id (init.mapM fun init => converted Γ made init declared line)
      (init'.mapM fun init => converted Γ' made init (declared.rename π) line) := by
    cases hinit with
    | none => exact .pure rfl
    | some h => exact .bind (follows_converted hΓ h declared line) fun _ => .pure rfl
  refine .bind hvalue fun init => ?_
  cases hscope with
  | none => exact .pure rfl
  | some h => exact .bind (follows_part h) fun (scope, ty) => .pure rfl

theorem follows_dispatch (line : Line) {object object' : Option (Elaborated ι)} (name : String)
    (hobject : Option.Rel (Elaborated.Follows π) object object')
    (h : List.Forall₂ (Elaborated.Follows π) es es') :
    Follows (retyped π) (dispatch Γ made line object name es)
      (dispatch Γ' made line object' name es') := by
  refine .bind (follows_receiver hΓ hobject) fun (object, ty) => ?_
  refine .bind (follows_call hΓ line ty name h) fun (method, arguments) => ?_
  refine .bind (follows_methodRef hΓ method) fun ref => .pure ?_
  simp only [retyped, MethodDef.rename]
  cases method.returnTy <;> rfl

theorem follows_staticDispatch (line : Line) (target name : String) (hobject : e.Follows π e')
    (h : List.Forall₂ (Elaborated.Follows π) es es') :
    Follows (retyped π) (staticDispatch Γ made line e target name es)
      (staticDispatch Γ' made line e' target name es') := by
  refine .bind (follows_part hobject) fun (object, objectTy) => ?_
  refine .bind (follows_resolve hΓ target line) fun targetTy => ?_
  simp only [ne_eq, hΓ.registry.rename_eq_iff, hΓ.registry.isStrictlyAbove]
  split_ifs
  · exact .of_fails (Step.fails_bind fun _ => Step.fails_reject.bind _)
  refine .bind (follows_label hΓ targetTy) fun type => ?_
  refine .bind (follows_call hΓ line targetTy name h) fun (method, arguments) => ?_
  exact .bind (follows_methodRef hΓ method) fun ref => .pure rfl

theorem follows_conditional (line : Line) {test test' thenBranch thenBranch' : Elaborated ι}
    {elseBranch elseBranch' : Option (Elaborated ι)} (htest : test.Follows π test')
    (hthen : thenBranch.Follows π thenBranch')
    (helse : Option.Rel (Elaborated.Follows π) elseBranch elseBranch') :
    Follows (retyped π) (conditional Γ line test thenBranch elseBranch)
      (conditional Γ' line test' thenBranch' elseBranch') := by
  refine .bind (follows_condition htest "If" line) fun test => ?_
  refine .bind (follows_part hthen) fun (thenBranch, thenTy) => ?_
  cases helse with
  | none => exact .pure rfl
  | some h =>
    refine .bind (follows_part h) fun (elseBranch, elseTy) => .pure ?_
    simp only [retyped, hΓ.registry.join, id]

theorem follows_assignment {locals locals' : Scopes String Variable}
    (hlocals : Scopes.Renames π locals locals') (line : Line) (target : String)
    (h : e.Follows π e') :
    Follows (retyped π) (assignment Γ made locals line target e)
      (assignment Γ' made locals' line target e') := by
  have hassigned : Body.assigned Γ' locals' target =
      ((Body.assigned Γ locals target).1,
        (Body.assigned Γ locals target).2.map (Variable.rename π)) := by
    unfold Body.assigned
    split
    · rw [hΓ.attribute?]
    · rw [hΓ.lookup? hlocals]
  unfold assignment
  rw [hassigned]
  rcases Body.assigned Γ locals target with ⟨target, _ | found⟩
  · exact .of_fails (fails_rejectVariable target line)
  · exact .bind (follows_converted hΓ h found.ty line) fun value => .pure rfl

omit hΓ in
theorem fails_rejectOperand {α : Type} (operand : Term ι) (ty other : Ty) :
    Step.Fails (rejectOperand Γ operand ty other : Visit ι α) := by
  unfold rejectOperand
  split
  · exact Step.fails_bind fun _ => Step.fails_reject
  · exact Step.fails_reject

theorem follows_addition (line : Line) (hlhs : lhs.Follows π lhs') (hrhs : rhs.Follows π rhs') :
    Follows (retyped π) (addition Γ made line lhs rhs) (addition Γ' made line lhs' rhs') := by
  refine .bind (follows_part hlhs) fun (lhs, lhsTy) => ?_
  refine .bind (follows_part hrhs) fun (rhs, rhsTy) => ?_
  have hcast (operand : Term ι) : Follows id (wrapInCast Γ made operand .string line) _ :=
    follows_wrapInCast hΓ operand .string line
  simp only [hΓ.registry.rename_string] at hcast
  -- the rule compares types with each other, with `Int` and with `String`, and so decides alike
  simp only [retyped, hΓ.registry.rename_eq_iff, Ty.rename_eq_int_iff,
    hΓ.registry.rename_eq_string_iff, ne_eq]
  split_ifs
  · exact .pure rfl
  · refine .bind (hcast lhs) fun lhs => .pure ?_
    rw [retyped, hΓ.registry.rename_string, id]
  · refine .bind (hcast rhs) fun rhs => .pure ?_
    rw [retyped, hΓ.registry.rename_string, id]
  · exact .of_fails (fails_rejectOperand lhs lhsTy rhsTy)
  · exact .of_fails (fails_rejectOperand rhs rhsTy lhsTy)
  · exact .of_fails Step.fails_fault

omit hΓ in
theorem follows_number (ty : Ty) (line : Line) :
    Follows id (number Γ ty line : Visit ι Unit) (number Γ' (ty.rename π) line) := by
  unfold number
  simp only [ne_eq, Ty.rename_eq_int_iff]
  split_ifs
  · exact .pure rfl
  · exact .of_fails (Step.fails_bind fun _ => Step.fails_reject)

omit hΓ in
theorem follows_binary (line : Line) (operator : BinaryOperator) (hlhs : lhs.Follows π lhs')
    (hrhs : rhs.Follows π rhs') :
    Follows (retyped π) (binary Γ line operator lhs rhs) (binary Γ' line operator lhs' rhs') := by
  refine .bind (follows_part hlhs) fun (lhs, lhsTy) => ?_
  refine .bind (follows_part hrhs) fun (rhs, rhsTy) => ?_
  refine .bind (follows_number lhsTy line) fun _ => ?_
  exact .bind (follows_number rhsTy line) fun _ => .pure rfl

theorem follows_equality (line : Line) (hlhs : lhs.Follows π lhs') (hrhs : rhs.Follows π rhs') :
    Follows id (equality Γ made line lhs rhs) (equality Γ' made line lhs' rhs') := by
  refine .bind (follows_part hlhs) fun (lhs, lhsTy) => ?_
  refine .bind (follows_part hrhs) fun (rhs, rhsTy) => ?_
  have hcast (operand : Term ι) : Follows id (wrapInCast Γ made operand .string line) _ :=
    follows_wrapInCast hΓ operand .string line
  have hwiden (side : Term ι) : Follows id (widen Γ made side) _ :=
    follows_wrapInCast hΓ side (.object .object) side.line
  simp only [hΓ.registry.rename_string] at hcast
  simp only [Ty.rename_object, hΓ.registry.object] at hwiden
  -- every test of the rule gives the same answer on renamed types
  simp only [retyped, hΓ.registry.rename_eq_iff, Ty.rename_eq_int_iff,
    hΓ.registry.rename_eq_string_iff, hΓ.registry.rename_eq_object_iff, Ty.class?_rename,
    Option.isSome_map]
  split_ifs
  · exact .pure rfl
  · exact .bind (hcast lhs) fun _ => .pure rfl
  · exact .bind (hcast rhs) fun _ => .pure rfl
  · exact .of_fails Step.fails_reject
  · exact .pure rfl
  · exact .bind (hwiden lhs) fun _ => .pure rfl
  · exact .bind (hwiden rhs) fun _ => .pure rfl
  · exact .pure rfl

theorem follows_symbol {locals locals' : Scopes String Variable}
    (hlocals : Scopes.Renames π locals locals') (line : Line) (name : String) :
    Follows (retyped π) (symbol Γ locals line name : Visit ι (Form (Term ι) × Ty))
      (symbol Γ' locals' line name) := by
  unfold symbol
  rw [hΓ.lookup? hlocals]
  cases Γ.lookup? locals name with
  | some found => exact .pure rfl
  | none =>
    dsimp only [Option.map_none]
    split_ifs
    · rw [hΓ.currentClass]
      exact .pure rfl
    · exact .of_fails (fails_rejectVariable name line)

end

end Visit

/-! ### Terms -/

section

variable (hΓ : Γ.Renames π Γ')
include hΓ

/-- Behind a local definition. -/
theorem Context.Renames.scopeOf {locals locals' : Scopes String Variable}
    (hlocals : Scopes.Renames π locals locals') (line : Line) (name typeName : String) :
    Scopes.Renames π (Γ.scopeOf line name typeName locals)
      (Γ'.scopeOf line name typeName locals') := by
  unfold Context.scopeOf
  rw [hΓ.registry.resolve?]
  cases Γ.registry.resolve? typeName with
  | none => exact hlocals.enter
  | some ty => exact hlocals.enter.define name (.letBound name line ty)

/-- The rule for a form, if its parts are elaborated alike. -/
theorem Form.follows_rule {locals locals' : Scopes String Variable}
    (hlocals : Scopes.Renames π locals locals') (line : Line) (form : Form (Term ι))
    (ih : ∀ part ∈ form.children, ∀ locals locals', Scopes.Renames π locals locals' →
      (part.elaborate Γ made locals).Follows π (part.elaborate Γ' made locals')) :
    Step.Follows (Visit.retyped π)
      (Visit.rule Γ made locals line (form.elaborate Γ made line locals))
      (Visit.rule Γ' made locals' line (form.elaborate Γ' made line locals')) := by
  -- the parts that come as a list, and the part that may be missing
  have hall (parts : List (Term ι)) (hparts : ∀ part ∈ parts, part ∈ form.children) :
      List.Forall₂ (Elaborated.Follows π) (Term.elaborateAll Γ made parts locals)
        (Term.elaborateAll Γ' made parts locals') := by
    induction parts with
    | nil => exact .nil
    | cons part parts ihparts =>
      rw [List.forall_mem_cons] at hparts
      exact .cons (ih part hparts.1 _ _ hlocals) (ihparts hparts.2)
  have hopt (part? : Option (Term ι)) (hpart : ∀ part ∈ part?, part ∈ form.children)
      {locals locals' : Scopes String Variable} (hlocals : Scopes.Renames π locals locals') :
      Option.Rel (Elaborated.Follows π) (Term.elaborate? Γ made part? locals)
        (Term.elaborate? Γ' made part? locals') := by
    cases part? with
    | none => exact .none
    | some part => exact .some (ih part (hpart part rfl) _ _ hlocals)
  cases form with
  | block items =>
    exact .bind (Visit.follows_items .noValue (hall items fun _ h => h)) fun _ => .pure rfl
  | localDefinition name typeName init scope recordedType =>
    refine Visit.follows_localDefinition hΓ line name typeName (hopt init ?_ hlocals)
      (hopt scope ?_ (hΓ.scopeOf hlocals line name typeName))
    · intro part hpart
      exact List.mem_append_left _ (Option.mem_toList.mpr hpart)
    · intro part hpart
      exact List.mem_append_right _ (Option.mem_toList.mpr hpart)
  | dispatch receiver name args recordedMethod =>
    refine Visit.follows_dispatch hΓ line name (hopt receiver ?_ hlocals) (hall args ?_)
    · intro part hpart
      exact List.mem_append_left _ (Option.mem_toList.mpr hpart)
    · exact fun part hpart => List.mem_append_right _ hpart
  | staticDispatch receiver className name args recordedReceiver recordedMethod =>
    refine Visit.follows_staticDispatch hΓ line className name (ih receiver ?_ _ _ hlocals)
      (hall args fun part hpart => List.mem_cons_of_mem _ hpart)
    exact List.mem_cons_self
  | conditional condition thenBranch elseBranch =>
    refine Visit.follows_conditional hΓ line (ih condition ?_ _ _ hlocals)
      (ih thenBranch ?_ _ _ hlocals.enter) (hopt elseBranch ?_ hlocals.enter)
    · simp [Form.children]
    · simp [Form.children]
    · intro part hpart
      simp [Form.children, Option.mem_def.mp hpart]
  | whileLoop condition body =>
    refine .bind (Visit.follows_condition (ih condition ?_ _ _ hlocals) "While" line) fun _ => ?_
    · simp [Form.children]
    · exact .bind (Visit.follows_part (ih body (by simp [Form.children]) _ _ hlocals.enter))
        fun _ => .pure rfl
  | cast typeName operand =>
    simp only [Visit.rule, Form.elaborate, hΓ.registry.resolve?]
    cases Γ.registry.resolve? typeName with
    | none => exact .pure rfl -- the operand is not looked at
    | some target =>
      exact .bind (Visit.follows_part (ih operand (by simp [Form.children]) _ _ hlocals)) fun _ =>
        .pure rfl
  | newObject typeName =>
    refine .bind (Visit.follows_resolve hΓ typeName line) fun ty => ?_
    simp only [Ty.rename_eq_int_iff]
    split_ifs
    · exact .of_fails (Step.fails_reject.bind _)
    · exact .pure rfl
  | substring subject first last =>
    refine .bind (Visit.follows_part (ih subject (by simp [Form.children]) _ _ hlocals)) fun _ => ?_
    refine .bind (Visit.follows_part (ih first (by simp [Form.children]) _ _ hlocals)) fun _ => ?_
    refine .bind (Visit.follows_part (ih last (by simp [Form.children]) _ _ hlocals)) fun _ => ?_
    exact .pure (by simp only [Visit.retyped, hΓ.registry.rename_string])
  | assignment target value recordedVariable =>
    exact Visit.follows_assignment hΓ hlocals line target
      (ih value (by simp [Form.children]) _ _ hlocals)
  | addition lhs rhs =>
    exact Visit.follows_addition hΓ line (ih lhs (by simp [Form.children]) _ _ hlocals)
      (ih rhs (by simp [Form.children]) _ _ hlocals)
  | binary operator lhs rhs =>
    exact Visit.follows_binary line operator (ih lhs (by simp [Form.children]) _ _ hlocals)
      (ih rhs (by simp [Form.children]) _ _ hlocals)
  | unary operator operand =>
    exact .bind (Visit.follows_part (ih operand (by simp [Form.children]) _ _ hlocals)) fun _ =>
      .pure rfl
  | equality lhs rhs =>
    exact .bind (Visit.follows_equality hΓ line (ih lhs (by simp [Form.children]) _ _ hlocals)
      (ih rhs (by simp [Form.children]) _ _ hlocals)) fun _ => .pure rfl
  | symbol name recordedVariable => exact Visit.follows_symbol hΓ hlocals line name
  | intConstant value => exact .pure rfl
  | stringConstant value =>
    exact .pure (by simp only [Visit.retyped, hΓ.registry.rename_string])
  | voidConstant => exact .pure rfl

/-- The elaboration of a term. -/
theorem Term.follows_elaborate (t : Term ι) (locals locals' : Scopes String Variable)
    (hlocals : Scopes.Renames π locals locals') :
    (t.elaborate Γ made locals).Follows π (t.elaborate Γ' made locals') := by
  induction t using Term.induction generalizing locals locals' with
  | node mark line form type ih =>
    have hrecorded : Step.Follows (fun r => (r.1, r.2.1.rename π, r.2.2))
        (Visit.recorded Γ made locals line (form.elaborate Γ made line locals))
        (Visit.recorded Γ' made locals' line (form.elaborate Γ' made line locals')) := by
      refine .bind (Form.follows_rule hΓ hlocals line form ih) fun (form, ty) => ?_
      exact .bind (Visit.follows_label hΓ ty) fun _ => .pure rfl
    intro ty hok
    rw [Term.elaborate] at hok ⊢
    rw [Term.elaborate]
    rcases hrun : (Visit.recorded Γ made locals line (form.elaborate Γ made line locals)).runFrom []
      with ⟨failure | ⟨form', ty', type'⟩, w⟩
    · rw [hrun] at hok
      cases hok
    · rw [hrun] at hok
      obtain rfl : ty' = ty := Except.ok.inj hok
      obtain ⟨w', hrun'⟩ := hrecorded [] w _ hrun []
      rw [hrun']
      exact ⟨rfl, rfl⟩

end

/-! ### Roots -/

namespace Expectation

/-- The same use, with other class numbers. -/
def rename (π : ClassId → ClassId) : Expectation → Expectation
  | anything => anything
  | initial ty site => initial (ty.rename π) site
  | returned ty line => returned (ty.rename π) line

theorem ofReturn_rename (π : ClassId → ClassId) (returnTy : Option Ty) (line : Line) :
    ofReturn (returnTy.map (Ty.rename π)) line = (ofReturn returnTy line).rename π := by
  rcases returnTy with _ | ty
  · rfl
  · cases ty <;> rfl

theorem follows_convert (hΓ : Γ.Renames π Γ') (e : Expectation) (t : Term ι) (source : Ty) :
    Step.Follows id (e.convert Γ made t source)
      ((e.rename π).convert Γ' made t (source.rename π)) := by
  cases e with
  | anything => exact .pure rfl
  | initial ty site => exact Visit.follows_convert hΓ t source ty site
  | returned ty line =>
    have hconvert : Step.Follows id (Visit.convert Γ made t source ty t.line) _ :=
      Visit.follows_convert hΓ t source ty t.line
    simp only [convert, rename, convertReturned, hΓ.registry.conversion?, Ty.rename_eq_int_iff]
    rcases Γ.registry.conversion? source ty with _ | _ | cast
    · exact hconvert
    · exact hconvert
    · dsimp only [Option.map_some, Conversion.rename]
      split_ifs
      · exact Visit.follows_wrapInCast hΓ t cast line
      · exact hconvert

/-- A root that is accepted is accepted under other class numbers as well, and the same term is
left. -/
theorem elaborate_of_renames (hΓ : Γ.Renames π Γ') {e : Expectation} {t t' : Term ι}
    (h : e.elaborate Γ made t = (.ok (), t')) :
    (e.rename π).elaborate Γ' made t = (.ok (), t') := by
  have hvisit : Step.Follows id (e.visit Γ made (t.elaborate Γ made .empty))
      ((e.rename π).visit Γ' made (t.elaborate Γ' made .empty)) := by
    refine .bind (Visit.follows_part (t.follows_elaborate hΓ _ _ (.empty π))) fun (t, source) => ?_
    exact follows_convert hΓ e t source
  rw [elaborate] at h ⊢
  rcases hrun : (e.visit Γ made (t.elaborate Γ made .empty)).runFrom [] with ⟨failure | t'', w⟩
  · rw [hrun] at h
    cases h
  · rw [hrun] at h
    obtain rfl : t'' = t' := (Prod.mk.inj h).2
    -- what a visit collects for the case of a failure is not compared
    obtain ⟨w', hrun'⟩ := hvisit [] w t'' hrun []
    rw [hrun']
    rfl

end Expectation

end Lcpl
