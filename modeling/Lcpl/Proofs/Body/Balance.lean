import Lcpl.Body.Check
import Lcpl.Proofs.Body.Visiting

/-!
# Balanced scopes

A rule opens a scope for a branch, a loop or the continuation of a local definition, and closes it
again whichever way the step inside ends. So a check leaves the scopes exactly as it has found them,
also where an error is raised far below, and it never closes a scope that it has not opened.

The rules are all put together from steps that leave the scopes alone, from the checks of the parts,
and from scopes around these. What such compositions respect, every rule respects.

## Main definitions

* `Body.Restores` — the step leaves the scopes as they were
* `Body.Congruence` — a relation between steps that compositions respect

## Main results

* `Congruence.elaborate` — the rules respect every such relation
* `Body.restores_checkBelow` — a check restores the scopes, whatever the nodes look like
* `Body.checks_restore_scopes` — so do the checks whose value is converted
-/

namespace Lcpl

/-- The state in a scope that was just entered. -/
def Session.nested (s : Session) : Session := { s with scopes := s.scopes.enter }

namespace Body

variable {α β : Type}

/-- However the step ends, it leaves the scopes as they were, and it has not left the root scope. -/
structure Restores (step : Body α) : Prop where
  scopes_eq : ∀ s, (step.runFrom s).2.scopes = s.scopes
  root_kept : ∀ s, (step.runFrom s).1 ≠ .error (.fault .rootScopeLeft)

/-! ### Sequences -/

namespace Restores

protected theorem pure (a : α) : Restores (pure a : Body α) := ⟨fun _ => rfl, nofun⟩

protected theorem get : Restores (get : Body Session) := ⟨fun _ => rfl, nofun⟩

protected theorem modify {f : Session → Session} (h : ∀ s, (f s).scopes = s.scopes) :
    Restores (modify f : Body PUnit) :=
  ⟨h, nofun⟩

protected theorem reject (error : SemanticError) (line : Line) :
    Restores (Step.reject error line : Body α) :=
  ⟨fun _ => rfl, fun _ => by simp⟩

protected theorem fault {f : Fault} (h : f ≠ .rootScopeLeft) : Restores (Step.fault f : Body α) :=
  ⟨fun _ => rfl, fun _ => by simpa using h⟩

protected theorem demand {f : Fault} (value? : Option α) (h : f ≠ .rootScopeLeft) :
    Restores (Step.demand f value? : Body α) := by
  cases value? with
  | none => exact .fault h
  | some a => exact .pure a

protected theorem bind {step : Body α} {next : α → Body β} (h : Restores step)
    (hnext : ∀ a, Restores (next a)) : Restores (step >>= next) where
  scopes_eq :=
    Step.runFrom_bind_invariant Session.scopes h.scopes_eq fun a => (hnext a).scopes_eq
  root_kept s := by
    have hkept := h.root_kept s
    rcases hrun : step.runFrom s with ⟨failure | a, s'⟩
    · rw [hrun] at hkept
      rw [Step.runFrom_bind_of_error hrun]
      exact fun heq => hkept (congrArg _ (Except.error.inj heq))
    · rw [Step.runFrom_bind_of_ok hrun]
      exact (hnext a).root_kept s'

end Restores

/-! ### Scopes around a step -/

/-- Apart from definitions in a scope of its own, the step leaves the scopes as they were. -/
structure Balances (step : Body α) : Prop where
  leave? : ∀ s : Session, (step.runFrom s.nested).2.scopes.leave? = some s.scopes
  root_kept : ∀ s : Session, (step.runFrom s.nested).1 ≠ .error (.fault .rootScopeLeft)

namespace Balances

/-- A step that defines nothing. -/
theorem of_restores {step : Body α} (h : Restores step) : Balances step where
  leave? s := by
    rw [h.scopes_eq]
    exact Scopes.leave?_enter s.scopes
  root_kept s := h.root_kept s.nested

/-- What is defined in a scope goes with it. -/
theorem define {step : Body α} (h : Restores step) (name : String) (line : Line) (ty : Ty) :
    Balances (Body.define name line ty >>= fun _ => step) where
  leave? s := by
    rw [Body.define, Step.runFrom_bind_of_ok (Step.runFrom_modify ..), h.scopes_eq]
    have hdepth : 0 < s.scopes.enter.depth := Nat.succ_pos _
    exact Scopes.leave?_define hdepth name _
  root_kept s := by
    rw [Body.define, Step.runFrom_bind_of_ok (Step.runFrom_modify ..)]
    exact h.root_kept _

/-- A scope is left with what the step inside has come to. -/
theorem runFrom_inScope {step : Body α} (h : Balances step) (s : Session) :
    (inScope step).runFrom s =
      ((step.runFrom s.nested).1, { (step.runFrom s.nested).2 with scopes := s.scopes }) := by
  have hleave := h.leave? s
  rcases hrun : step.runFrom s.nested with ⟨result, after⟩
  rw [hrun] at hleave
  exact Body.runFrom_inScope hrun hleave

theorem restores_inScope {step : Body α} (h : Balances step) : Restores (inScope step) where
  scopes_eq s := by rw [h.runFrom_inScope]
  root_kept s := by
    rw [h.runFrom_inScope]
    exact h.root_kept s

end Balances

/-! ### Steps without scopes of their own -/

namespace Restores

variable (Γ : Context)

theorem emit (event : Event) : Restores (Body.emit event) := .modify fun _ => rfl

theorem node (id : ExprId) : Restores (Body.node id) := .bind .get fun _ => .demand _ nofun

theorem alloc (line : Line) (expr : Expr) (type : TypeName) :
    Restores (Body.alloc line expr type) :=
  ⟨fun _ => rfl, nofun⟩

theorem record (id : ExprId) (expr : Expr) (type : TypeName) :
    Restores (Body.record id expr type) :=
  .bind (node id) fun _ => .modify fun _ => rfl

theorem label (ty : Ty) : Restores (Body.label Γ ty) := .demand _ nofun

theorem typeName (ty : Ty) : Restores (Body.typeName Γ ty) := .bind (label Γ ty) fun _ => .pure _

theorem methodRef (method : MethodDef) : Restores (Body.methodRef Γ method) :=
  .bind (.demand _ nofun) fun _ => .pure _

theorem resolve (name : String) (line : Line) : Restores (Body.resolve Γ name line) := by
  unfold Body.resolve
  split
  · exact .pure _
  · exact .reject _ _

theorem rejectVariable (name : String) (line : Line) :
    Restores (Body.rejectVariable Γ name line : Body α) :=
  .bind (.demand _ nofun) fun _ => .reject _ _

theorem wrapInCast (operand : ExprId) (target : Ty) (line : Line) :
    Restores (Body.wrapInCast Γ operand target line) :=
  .bind (label Γ target) fun _ => .bind (alloc ..) fun _ => .bind (emit _) fun _ => .pure _

theorem castLine (id : ExprId) (source : Ty) (site : Line) :
    Restores (Body.castLine id source site) := by
  unfold Body.castLine
  split
  · exact .pure _
  · exact .bind (node id) fun _ => .pure _

theorem convert (id : ExprId) (source target : Ty) (site : Line) :
    Restores (Body.convert Γ id source target site) := by
  unfold Body.convert
  split
  · exact .pure _
  · exact .bind (castLine ..) fun _ => wrapInCast ..
  · exact .bind (typeName ..) fun _ => .bind (typeName ..) fun _ => .reject _ _

theorem widen (side : ExprId) : Restores (Body.widen Γ side) :=
  .bind (node side) fun _ => wrapInCast ..

theorem rejectOperand (operand : ExprId) (ty other : Ty) :
    Restores (Body.rejectOperand Γ operand ty other : Body α) := by
  refine .bind (node operand) fun node => ?_
  dsimp only
  split
  · exact .bind (typeName ..) fun _ => .reject _ _
  · exact .reject _ _

theorem checkSymbol (line : Line) (name : String) : Restores (Body.checkSymbol Γ line name) := by
  refine .bind .get fun session => ?_
  split
  · exact .pure _
  · split
    · exact .pure _
    · exact rejectVariable ..

end Restores

/-! ### What the rules respect -/

/-- A relation between steps that compositions respect: steps that leave the scopes alone are
related to themselves, and sequences and scopes of related steps are related. -/
structure Congruence (R : (α : Type) → Body α → Body α → Prop) : Prop where
  refl : ∀ {α : Type} {step : Body α}, Restores step → R α step step
  bind : ∀ {α β : Type} {step step' : Body α} {next next' : α → Body β}, R α step step' →
    (∀ a, R β (next a) (next' a)) → R β (step >>= next) (step' >>= next')
  inScope : ∀ {α : Type} {step step' : Body α}, R α step step' →
    R α (inScope step) (inScope step')
  inScope_define : ∀ {α : Type} {step step' : Body α} (name : String) (line : Line) (ty : Ty),
    R α step step' →
      R α (Body.inScope (define name line ty >>= fun _ => step))
        (Body.inScope (define name line ty >>= fun _ => step'))

namespace Congruence

variable {R : (α : Type) → Body α → Body α → Prop} (h : Congruence R) (Γ : Context)
variable {recur recur' : ExprId → Body Ty} (hrecur : ∀ id, R Ty (recur id) (recur' id))

include h

theorem pure (a : α) : R α (pure a) (pure a) := h.refl (.pure a)

theorem bind_refl {step : Body α} {next next' : α → Body β} (hstep : Restores step)
    (hnext : ∀ a, R β (next a) (next' a)) : R β (step >>= next) (step >>= next') :=
  h.bind (h.refl hstep) hnext

include hrecur

theorem checkItems (ty : Ty) (items : List ExprId) :
    R Ty (Body.checkItems recur ty items) (Body.checkItems recur' ty items) := by
  induction items generalizing ty with
  | nil => exact h.pure ty
  | cons item items ih => exact h.bind (hrecur item) ih

theorem checkPart (id : ExprId) (expected : Ty) (site : Line) :
    R ExprId (Body.checkPart Γ recur id expected site) (Body.checkPart Γ recur' id expected site) :=
  h.bind (hrecur id) fun _ => h.refl (.convert ..)

theorem checkArgs (line : Line) (args : List ExprId) (params : List ParamDef) :
    R (List ExprId) (Body.checkArgs Γ recur line args params)
      (Body.checkArgs Γ recur' line args params) := by
  induction args generalizing params with
  | nil =>
    cases params with
    | nil => exact h.pure []
    | cons param params => exact h.refl (.fault nofun)
  | cons arg args ih =>
    cases params with
    | nil => exact h.refl (.fault nofun)
    | cons param params =>
      exact h.bind (h.checkPart Γ hrecur arg param.ty line) fun _ =>
        h.bind (ih params) fun _ => h.pure _

theorem checkCall (line : Line) (receiver : Ty) (name : String) (args : List ExprId) :
    R (MethodDef × List ExprId) (Body.checkCall Γ recur line receiver name args)
      (Body.checkCall Γ recur' line receiver name args) := by
  unfold Body.checkCall
  split
  · exact h.refl (.bind (.typeName ..) fun _ => .reject _ _)
  · next method _ =>
    have hargs : R (MethodDef × List ExprId) _ _ :=
      h.bind (h.checkArgs Γ hrecur line args method.params) fun args => h.pure (method, args)
    dsimp only
    split
    · refine h.bind_refl (.reject _ _) fun _ => ?_
      split
      · exact h.bind_refl (.reject _ _) fun _ => hargs
      · exact hargs
    · split
      · exact h.bind_refl (.reject _ _) fun _ => hargs
      · exact hargs

theorem checkReceiver (receiver : Option ExprId) :
    R (ExprId × Ty) (Body.checkReceiver Γ recur receiver)
      (Body.checkReceiver Γ recur' receiver) := by
  cases receiver with
  | none => exact h.refl (.bind (.label ..) fun _ => .bind (.alloc ..) fun _ => .pure _)
  | some receiver => exact h.bind (hrecur receiver) fun _ => h.pure _

theorem checkCondition (condition : ExprId) (construct : String) (line : Line) :
    R Unit (Body.checkCondition recur condition construct line)
      (Body.checkCondition recur' condition construct line) := by
  refine h.bind (hrecur condition) fun ty => ?_
  split
  · exact h.refl (.reject _ _)
  · exact h.pure _

theorem checkLocal (line : Line) (name declaredType : String) (init scope : Option ExprId) :
    R (Expr × Ty) (Body.checkLocal Γ recur line name declaredType init scope)
      (Body.checkLocal Γ recur' line name declaredType init scope) := by
  refine h.bind_refl (.resolve ..) fun declared => h.bind_refl (.label ..) fun type => ?_
  refine h.bind (?_ : R (Option ExprId) _ _) fun init => ?_
  · cases init with
    | none => exact h.pure none
    | some init => exact h.bind (h.checkPart Γ hrecur init declared line) fun _ => h.pure _
  · refine h.bind (h.inScope_define name line declared ?_) fun ty => h.pure _
    cases scope with
    | none => exact h.pure _
    | some scope => exact hrecur scope

theorem checkDispatch (line : Line) (receiver : Option ExprId) (name : String)
    (args : List ExprId) :
    R (Expr × Ty) (Body.checkDispatch Γ recur line receiver name args)
      (Body.checkDispatch Γ recur' line receiver name args) :=
  h.bind (h.checkReceiver Γ hrecur receiver) fun _ => h.bind (h.checkCall Γ hrecur ..) fun _ =>
    h.refl (.bind (.methodRef ..) fun _ => .pure _)

theorem checkStaticDispatch (line : Line) (receiver : ExprId) (target name : String)
    (args : List ExprId) :
    R (Expr × Ty) (Body.checkStaticDispatch Γ recur line receiver target name args)
      (Body.checkStaticDispatch Γ recur' line receiver target name args) := by
  refine h.bind (hrecur receiver) fun receiverTy => h.bind_refl (.resolve ..) fun targetTy => ?_
  have hcall : R (Expr × Ty) _ _ := h.bind_refl (.label Γ targetTy) fun type =>
    h.bind (h.checkCall Γ hrecur line targetTy name args) fun call =>
      h.refl (.bind (.methodRef Γ call.1) fun ref =>
        .pure (Form.staticDispatch receiver target name call.2 (some type) (some ref), targetTy))
  dsimp only
  split
  · exact h.bind_refl (.typeName ..) fun _ => h.bind_refl (.reject _ _) fun _ => hcall
  · exact hcall

theorem checkConditional (line : Line) (condition thenBranch : ExprId)
    (elseBranch : Option ExprId) :
    R Ty (Body.checkConditional Γ recur line condition thenBranch elseBranch)
      (Body.checkConditional Γ recur' line condition thenBranch elseBranch) := by
  refine h.bind (h.checkCondition hrecur ..) fun _ => ?_
  refine h.bind (h.inScope (hrecur thenBranch)) fun thenTy => ?_
  cases elseBranch with
  | none => exact h.pure _
  | some elseBranch => exact h.bind (h.inScope (hrecur elseBranch)) fun _ => h.pure _

theorem checkAssignment (line : Line) (target : String) (value : ExprId) :
    R (Expr × Ty) (Body.checkAssignment Γ recur line target value)
      (Body.checkAssignment Γ recur' line target value) := by
  refine h.bind_refl .get fun session => ?_
  split
  · exact h.refl (.rejectVariable ..)
  · next found _ => exact h.bind (h.checkPart Γ hrecur value found.ty line) fun _ => h.pure _

theorem checkAddition (line : Line) (lhs rhs : ExprId) :
    R (Expr × Ty) (Body.checkAddition Γ recur line lhs rhs)
      (Body.checkAddition Γ recur' line lhs rhs) := by
  refine h.bind (hrecur lhs) fun lhsTy => h.bind (hrecur rhs) fun rhsTy => h.refl ?_
  split
  · exact .pure _
  split
  · exact .bind (.wrapInCast ..) fun _ => .pure _
  split
  · exact .bind (.wrapInCast ..) fun _ => .pure _
  split
  · exact .rejectOperand ..
  split
  · exact .rejectOperand ..
  · exact .fault nofun

theorem checkBinary (line : Line) (operator : BinaryOperator) (lhs rhs : ExprId) :
    R Unit (Body.checkBinary Γ recur line operator lhs rhs)
      (Body.checkBinary Γ recur' line operator lhs rhs) := by
  refine h.bind (hrecur lhs) fun lhsTy => h.bind (hrecur rhs) fun rhsTy => h.refl ?_
  refine .bind (.emit _) fun _ => ?_
  have hrhs : Restores (if rhsTy ≠ .int then do
      Step.reject (.cannotConvert (← Body.typeName Γ rhsTy) Vocabulary.int) line
    else Pure.pure () : Body Unit) := by
    split
    · exact .bind (.typeName ..) fun _ => .reject _ _
    · exact .pure _
  dsimp only
  split
  · exact .bind (.typeName ..) fun _ => .bind (.reject _ _) fun _ => hrhs
  · exact hrhs

theorem checkEquality (line : Line) (lhs rhs : ExprId) :
    R Expr (Body.checkEquality Γ recur line lhs rhs)
      (Body.checkEquality Γ recur' line lhs rhs) := by
  refine h.bind (hrecur lhs) fun lhsTy => h.bind (hrecur rhs) fun rhsTy => h.refl ?_
  split
  · exact .pure _
  split
  · exact .bind (.wrapInCast ..) fun _ => .pure _
  split
  · exact .bind (.wrapInCast ..) fun _ => .pure _
  split
  · exact .reject _ _
  split
  · exact .pure _
  split
  · exact .bind (.widen ..) fun _ => .pure _
  split
  · exact .bind (.widen ..) fun _ => .pure _
  · exact .pure _

/-- The rule for every form respects what compositions respect. -/
theorem elaborate (line : Line) (expr : Expr) :
    R (Expr × Ty) (Body.elaborate Γ recur line expr) (Body.elaborate Γ recur' line expr) := by
  cases expr with
  | block items => exact h.bind (h.checkItems hrecur ..) fun _ => h.pure _
  | localDefinition name typeName init scope type => exact h.checkLocal Γ hrecur ..
  | dispatch receiver name args ref => exact h.checkDispatch Γ hrecur ..
  | staticDispatch receiver target name args type ref => exact h.checkStaticDispatch Γ hrecur ..
  | conditional condition thenBranch elseBranch =>
    exact h.bind (h.checkConditional Γ hrecur ..) fun _ => h.pure _
  | whileLoop condition body =>
    exact h.bind (h.checkCondition hrecur ..) fun _ => h.bind (h.inScope (hrecur body)) fun _ =>
      h.pure _
  | cast typeName operand =>
    -- the operand of a cast to an unknown type is not visited
    rw [Body.elaborate, Body.elaborate]
    split
    · exact h.bind (hrecur operand) fun _ => h.pure _
    · exact h.refl (.bind (.emit _) fun _ => .pure _)
  | newObject typeName =>
    -- rules that visit no part are the same step on both sides
    refine h.refl (.bind (.resolve ..) fun ty => ?_)
    dsimp only
    split
    · exact .bind (.reject _ _) fun _ => .pure _
    · exact .pure _
  | substring subject first last =>
    refine h.bind (hrecur subject) fun _ => h.bind (hrecur first) fun _ =>
      h.bind (hrecur last) fun _ => h.refl ?_
    dsimp only
    split
    · exact .bind (.emit _) fun _ => .pure _
    · exact .pure _
  | assignment target value ref => exact h.checkAssignment Γ hrecur ..
  | addition lhs rhs => exact h.checkAddition Γ hrecur ..
  | binary operator lhs rhs => exact h.bind (h.checkBinary Γ hrecur ..) fun _ => h.pure _
  | unary operator operand =>
    refine h.bind (hrecur operand) fun ty => h.refl ?_
    dsimp only
    split
    · exact .bind (.emit _) fun _ => .pure _
    · exact .pure _
  | equality lhs rhs => exact h.bind (h.checkEquality Γ hrecur ..) fun _ => h.pure _
  | symbol name ref => exact h.refl (.checkSymbol ..)
  | intConstant value => exact h.pure _
  | stringConstant value => exact h.pure _
  | voidConstant => exact h.pure _

end Congruence

/-! ### Checks -/

theorem congruence_restores :
    Congruence fun α (step step' : Body α) => Restores step ∧ Restores step' where
  refl h := ⟨h, h⟩
  bind h hnext := ⟨h.1.bind fun a => (hnext a).1, h.2.bind fun a => (hnext a).2⟩
  inScope h :=
    ⟨(Balances.of_restores h.1).restores_inScope, (Balances.of_restores h.2).restores_inScope⟩
  inScope_define name line ty h :=
    ⟨(Balances.define h.1 name line ty).restores_inScope,
      (Balances.define h.2 name line ty).restores_inScope⟩

/-- A check restores the scopes, at whatever node it goes wrong. -/
theorem restores_checkBelow (Γ : Context) (depth : Nat) (id : ExprId) :
    Restores (checkBelow Γ depth id) := by
  induction depth generalizing id with
  | zero => exact .fault nofun
  | succ depth ih =>
    have hrule (line : Line) (expr : Expr) :
        Restores (elaborate Γ (checkBelow Γ depth) line expr) :=
      (congruence_restores.elaborate Γ (fun id => ⟨ih id, ih id⟩) line expr).1
    refine .bind (.node id) fun node => .bind (.emit _) fun _ => .bind (hrule ..) fun r => ?_
    exact .bind (.label ..) fun _ => .bind (.record ..) fun _ => .pure _

theorem restores_checkExpr (Γ : Context) (id : ExprId) : Restores (checkExpr Γ id) :=
  .bind .get fun _ => restores_checkBelow ..

theorem restores_checkPart {recur : ExprId → Body Ty} (hrecur : ∀ id, Restores (recur id))
    (Γ : Context) (id : ExprId) (expected : Ty) (site : Line) :
    Restores (checkPart Γ recur id expected site) :=
  (congruence_restores.checkPart Γ (fun id => ⟨hrecur id, hrecur id⟩) id expected site).1

/-- The check of an expression at any depth, with or without a conversion of its value, leaves the
scopes as they were, and never leaves more scopes than it has entered. It may end with a result or
with an error from far below, and the nodes need not even form a tree. -/
theorem checks_restore_scopes (Γ : Context) (root : ExprId) (expected : Ty) (line : Line) :
    (∀ depth, Restores (checkBelow Γ depth root) ∧
      Restores (checkPart Γ (checkBelow Γ depth) root expected line)) ∧
    Restores (checkExpr Γ root) ∧ Restores (checkAgainst Γ root expected line) ∧
      Restores (checkReturn Γ root expected line) := by
  refine ⟨fun depth => ⟨restores_checkBelow Γ depth root, ?_⟩, restores_checkExpr Γ root, ?_, ?_⟩
  · exact restores_checkPart (restores_checkBelow Γ depth) ..
  · exact restores_checkPart (restores_checkExpr Γ) ..
  · refine .bind (restores_checkExpr Γ root) fun ty => .bind (.node root) fun node => ?_
    dsimp only
    split
    · split
      · exact .wrapInCast ..
      · exact .convert ..
    · exact .convert ..

end Body

end Lcpl
