import Lcpl.Body.Check
import Lcpl.Proofs.Lockstep
import Lcpl.Proofs.Term.Basic

/-!
# Elaboration of terms

The rules of `Lcpl.Body.Rules` on terms, without an arena. Elaboration is a function: it takes a
term and the local definitions in force, and yields the annotated term with its type, or the
failure. Where a value is converted, the cast becomes part of the term right away, since nothing
refers to a part by handle.

A rule visits parts in order. When it fails, the parts visited until then are left as their own
elaboration leaves them, and the node keeps everything else. So a term is left also by an
elaboration that fails, which is what a second elaboration will find.

## Main definitions

* `Elaborated` — what the elaboration of a term ends with
* `Context.scopeOf`, `Form.scoped` — the local definitions in force in each part of a form
* `Visit` — a rule, as steps on the list of parts visited so far
* `Visit.rule` — the rule for each form
* `Term.elaborate` — the elaboration of a term

## Main results

* `Form.elaborate_eq_map` — the parts of a form are elaborated apart from each other
-/

namespace Lcpl

/-- What the elaboration of a term ends with: its type or the failure, and the term that is left. -/
structure Elaborated (ι : Type) where
  result : Except Failure Ty
  term : Term ι

/-- A term that is not elaborated at all. -/
def Elaborated.untouched {ι : Type} (term : Term ι) : Elaborated ι := ⟨.ok .noValue, term⟩

variable {ι κ : Type}

/-! ### The scope of each part -/

/-- The local definitions in force behind a local definition. Nothing is looked up in them when the
declared type does not resolve. -/
def Context.scopeOf (Γ : Context) (line : Line) (name typeName : String)
    (locals : Scopes String Variable) : Scopes String Variable :=
  match Γ.registry.resolve? typeName with
  | some ty => locals.enter.define name (.letBound name line ty)
  | none => locals.enter

/-- Each part of a form with the local definitions in force there. The branches of a choice and the
body of a loop have scopes of their own. There is none for a part that is not checked at all, which
is the operand of a cast to an unknown type. -/
def Form.scoped (Γ : Context) (line : Line) (locals : Scopes String Variable) :
    Form κ → Form (κ × Option (Scopes String Variable))
  | localDefinition name typeName init scope recordedType =>
      localDefinition name typeName (init.map (·, some locals))
        (scope.map (·, some (Γ.scopeOf line name typeName locals))) recordedType
  | conditional condition thenBranch elseBranch =>
      conditional (condition, some locals) (thenBranch, some locals.enter)
        (elseBranch.map (·, some locals.enter))
  | whileLoop condition body => whileLoop (condition, some locals) (body, some locals.enter)
  | cast typeName operand =>
      cast typeName (operand, (Γ.registry.resolve? typeName).map fun _ => locals)
  | form => form.map (·, some locals)

theorem Form.scoped_map_fst (Γ : Context) (line : Line) (locals : Scopes String Variable)
    (form : Form κ) : (form.scoped Γ line locals).map Prod.fst = form := by
  cases form <;> simp [Form.scoped, Form.map, Function.comp_def]

/-- Scopes do not depend on what the parts are. -/
theorem Form.scoped_map {κ' : Type} (Γ : Context) (line : Line) (locals : Scopes String Variable)
    (f : κ → κ') (form : Form κ) :
    (form.map f).scoped Γ line locals = (form.scoped Γ line locals).map (Prod.map f id) := by
  cases form <;> simp [Form.scoped, Form.map, Function.comp_def]

theorem Form.mem_children_of_scoped {Γ : Context} {line : Line} {locals : Scopes String Variable}
    {form : Form κ} {part : κ × Option (Scopes String Variable)}
    (h : part ∈ (form.scoped Γ line locals).children) : part.1 ∈ form.children := by
  have := Form.mem_children_map (f := Prod.fst) h
  rwa [Form.scoped_map_fst] at this

/-- A part is checked with the definitions in force at its node, in a scope of its own, or behind
the local definition that the node is. -/
theorem Form.scope_of_mem_scoped {Γ : Context} {line : Line}
    {locals scope : Scopes String Variable} {form : Form κ}
    {part : κ × Option (Scopes String Variable)} (h : part ∈ (form.scoped Γ line locals).children)
    (hscope : part.2 = some scope) :
    scope = locals ∨ scope = locals.enter ∨
      ∃ name typeName init body recordedType,
        form = .localDefinition name typeName init body recordedType ∧
          scope = Γ.scopeOf line name typeName locals := by
  -- most forms check all their parts with the same definitions in force
  have hmap (parts : List κ) (h : part ∈ parts.map (·, some locals)) : scope = locals := by
    obtain ⟨part, -, rfl⟩ := List.mem_map.mp h
    exact (Option.some_inj.mp hscope).symm
  cases form with
  | localDefinition name typeName init body =>
    simp only [Form.scoped, Form.children, List.mem_append, Option.mem_toList,
      Option.map_eq_some_iff] at h
    rcases h with ⟨value, -, rfl⟩ | ⟨value, -, rfl⟩
    · exact .inl (Option.some_inj.mp hscope).symm
    · exact .inr (.inr ⟨_, _, _, _, _, rfl, (Option.some_inj.mp hscope).symm⟩)
  | conditional condition thenBranch elseBranch =>
    simp only [Form.scoped, Form.children, List.mem_cons, Option.mem_toList,
      Option.map_eq_some_iff] at h
    rcases h with rfl | rfl | ⟨branch, -, rfl⟩
    · exact .inl (Option.some_inj.mp hscope).symm
    · exact .inr (.inl (Option.some_inj.mp hscope).symm)
    · exact .inr (.inl (Option.some_inj.mp hscope).symm)
  | whileLoop condition body =>
    simp only [Form.scoped, Form.children, List.mem_cons, List.not_mem_nil, or_false] at h
    rcases h with rfl | rfl
    · exact .inl (Option.some_inj.mp hscope).symm
    · exact .inr (.inl (Option.some_inj.mp hscope).symm)
  | cast typeName operand =>
    -- the operand has a scope only if the type is known
    simp only [Form.scoped, Form.children, List.mem_singleton] at h
    subst h
    obtain ⟨-, -, rfl⟩ := Option.map_eq_some_iff.mp hscope
    exact .inl rfl
  | _ =>
    simp only [Form.scoped, Form.children_map] at h
    exact .inl (hmap _ h)

/-! ### Rules -/

/-- A step of a rule, on the list of the parts visited so far as they were left. -/
abbrev Visit (ι α : Type) := Step (List (Term ι)) α

namespace Visit

/-- Visits a part, which ends the rule if the elaboration of the part failed. -/
def part (elaborated : Elaborated ι) : Visit ι (Term ι × Ty) := do
  modify (· ++ [elaborated.term])
  let ty ← Step.ofExcept elaborated.result
  return (elaborated.term, ty)

theorem runFrom_part (r : Elaborated ι) (w : List (Term ι)) :
    (part r).runFrom w = (r.result.map fun ty => (r.term, ty), w ++ [r.term]) := by
  unfold part
  rw [Step.runFrom_bind_of_ok (Step.runFrom_modify ..)]
  cases h : r.result with
  | error failure => rw [Step.runFrom_bind_of_error (Step.runFrom_ofExcept ..)]; rfl
  | ok ty => rw [Step.runFrom_bind_of_ok (Step.runFrom_ofExcept ..)]; rfl

section Rules

variable (Γ : Context) (made : ι)

/-- Visits items one after the other; the type is that of the last. -/
def items : Ty → List (Elaborated ι) → Visit ι (List (Term ι) × Ty)
  | ty, [] => return ([], ty)
  | _, item :: rest => do
      let (item, ty) ← part item
      let (rest, ty) ← items ty rest
      return (item :: rest, ty)

/-- Wraps a term in a cast. -/
def wrapInCast (operand : Term ι) (target : Ty) (line : Line) : Visit ι (Term ι) := do
  let type ← Body.label Γ target
  return .node made line (.cast type.text operand) (some type)

/-- Uses a term of type `source` where `target` is expected. -/
def convert (term : Term ι) (source target : Ty) (site : Line) : Visit ι (Term ι) :=
  match Γ.registry.conversion? source target with
  | some .keep => pure term
  | some (.cast target) =>
      wrapInCast Γ made term target (if source = .int then site else term.line)
  | none => do
      Step.reject (.cannotConvert (← Body.typeName Γ source) (← Body.typeName Γ target)) site

/-- Visits a part and converts it to an expected type. -/
def converted (elaborated : Elaborated ι) (expected : Ty) (site : Line) : Visit ι (Term ι) := do
  let (term, ty) ← part elaborated
  convert Γ made term ty expected site

/-- Visits arguments in turn and converts each to the type of its parameter. -/
def args (line : Line) : List (Elaborated ι) → List ParamDef → Visit ι (List (Term ι))
  | [], [] => pure []
  | arg :: rest, param :: params => do
      let arg ← converted Γ made arg param.ty line
      let rest ← args line rest params
      return arg :: rest
  | _, _ => Step.fault .unevenArguments

/-- The method of a call, with the arguments converted to its parameters. -/
def call (line : Line) (receiver : Ty) (name : String) (arguments : List (Elaborated ι)) :
    Visit ι (MethodDef × List (Term ι)) :=
  match receiver.class?.bind (Γ.registry.lookupMethod? · name) with
  | none => do
      Step.reject (.methodNotFound name (← Body.typeName Γ receiver)) line
  | some method => do
      if arguments.length < method.params.length then
        Step.reject (.notEnoughArguments name) line
      if arguments.length > method.params.length then
        Step.reject (.tooManyArguments name) line
      let arguments ← args Γ made line arguments method.params
      return (method, arguments)

/-- The receiver of a call, which is made if there is none. -/
def receiver : Option (Elaborated ι) → Visit ι (Term ι × Ty)
  | some elaborated => part elaborated
  | none => do
      let ty := Ty.object Γ.currentClass
      let type ← Body.label Γ ty
      return (.node made Γ.line (.symbol Vocabulary.receiver (some .receiver)) (some type), ty)

/-- A condition has to be a number. -/
def condition (elaborated : Elaborated ι) (construct : String) (line : Line) :
    Visit ι (Term ι) := do
  let (term, ty) ← part elaborated
  if ty ≠ .int then
    Step.reject (.conditionMustBeInt construct) line
  return term

/-- The rule for local definitions. -/
def localDefinition (line : Line) (name declaredType : String)
    (init scope : Option (Elaborated ι)) : Visit ι (Form (Term ι) × Ty) := do
  let declared ← Body.resolve Γ declaredType line
  let type ← Body.label Γ declared
  let init ← init.mapM fun init => converted Γ made init declared line
  match scope with
  | some scope =>
      let (scope, ty) ← part scope
      return (.localDefinition name declaredType init (some scope) (some type), ty)
  | none => return (.localDefinition name declaredType init none (some type), .noValue)

/-- The rule for calls. -/
def dispatch (line : Line) (object : Option (Elaborated ι)) (name : String)
    (arguments : List (Elaborated ι)) : Visit ι (Form (Term ι) × Ty) := do
  let (object, ty) ← receiver Γ made object
  let (method, arguments) ← call Γ made line ty name arguments
  let ref ← Body.methodRef Γ method
  return (.dispatch (some object) name arguments (some ref), method.returnTy.getD .noValue)

/-- The rule for calls in a named class. -/
def staticDispatch (line : Line) (object : Elaborated ι) (target name : String)
    (arguments : List (Elaborated ι)) : Visit ι (Form (Term ι) × Ty) := do
  let (object, objectTy) ← part object
  let targetTy ← Body.resolve Γ target line
  if targetTy ≠ objectTy && !Γ.registry.isStrictlyAbove targetTy objectTy then
    Step.reject (.cannotConvertInStaticDispatch (← Body.typeName Γ objectTy) target) line
  let type ← Body.label Γ targetTy
  let (method, arguments) ← call Γ made line targetTy name arguments
  let ref ← Body.methodRef Γ method
  return (.staticDispatch object target name arguments (some type) (some ref), targetTy)

/-- The rule for choices. -/
def conditional (line : Line) (test thenBranch : Elaborated ι)
    (elseBranch : Option (Elaborated ι)) : Visit ι (Form (Term ι) × Ty) := do
  let test ← condition test "If" line
  let (thenBranch, thenTy) ← part thenBranch
  match elseBranch with
  | some elseBranch =>
      let (elseBranch, elseTy) ← part elseBranch
      return (.conditional test thenBranch (some elseBranch), Γ.registry.join thenTy elseTy)
  | none => return (.conditional test thenBranch none, .noValue)

/-- The rule for assignments. -/
def assignment (locals : Scopes String Variable) (line : Line) (target : String)
    (value : Elaborated ι) : Visit ι (Form (Term ι) × Ty) :=
  match Body.assigned Γ locals target with
  | (target, none) => Body.rejectVariable Γ target line
  | (target, some found) => do
      let value ← converted Γ made value found.ty line
      return (.assignment target value (some found.ref), found.ty)

/-- Rejects an addition because of one operand, at the line of that operand. -/
def rejectOperand {α : Type} (operand : Term ι) (ty other : Ty) : Visit ι α :=
  if other = .string then do
    Step.reject (.cannotConvert (← Body.typeName Γ ty) Vocabulary.string) operand.line
  else Step.reject .cannotConvertAddition operand.line

/-- The rule for additions. -/
def addition (line : Line) (lhs rhs : Elaborated ι) : Visit ι (Form (Term ι) × Ty) := do
  let (lhs, lhsTy) ← part lhs
  let (rhs, rhsTy) ← part rhs
  if lhsTy = rhsTy then
    return (.addition lhs rhs, lhsTy)
  else if lhsTy = .int ∧ rhsTy = .string then
    return (.addition (← wrapInCast Γ made lhs .string line) rhs, .string)
  else if lhsTy = .string ∧ rhsTy = .int then
    return (.addition lhs (← wrapInCast Γ made rhs .string line), .string)
  else if lhsTy ≠ .int ∧ lhsTy ≠ .string then
    rejectOperand Γ lhs lhsTy rhsTy
  else if rhsTy ≠ .int ∧ rhsTy ≠ .string then
    rejectOperand Γ rhs rhsTy lhsTy
  else Step.fault .uncoveredAddition

/-- Rejects an operand that is not a number. -/
def number (ty : Ty) (line : Line) : Visit ι Unit := do
  if ty ≠ .int then
    Step.reject (.cannotConvert (← Body.typeName Γ ty) Vocabulary.int) line

/-- The rule for other operators on two numbers. -/
def binary (line : Line) (operator : BinaryOperator) (lhs rhs : Elaborated ι) :
    Visit ι (Form (Term ι) × Ty) := do
  let (lhs, lhsTy) ← part lhs
  let (rhs, rhsTy) ← part rhs
  number Γ lhsTy line
  number Γ rhsTy line
  return (.binary operator lhs rhs, .int)

/-- Wraps one side of a comparison in a cast to `Object`, at its own line. -/
def widen (side : Term ι) : Visit ι (Term ι) := wrapInCast Γ made side (.object .object) side.line

/-- The rule for equality. -/
def equality (line : Line) (lhs rhs : Elaborated ι) : Visit ι (Form (Term ι)) := do
  let (lhs, lhsTy) ← part lhs
  let (rhs, rhsTy) ← part rhs
  if lhsTy = rhsTy then
    return .equality lhs rhs
  else if lhsTy = .int ∧ rhsTy = .string then
    return .equality (← wrapInCast Γ made lhs .string line) rhs
  else if lhsTy = .string ∧ rhsTy = .int then
    return .equality lhs (← wrapInCast Γ made rhs .string line)
  else if lhsTy = .int ∨ rhsTy = .int then
    Step.reject (.invalidOperands "==") line
  else if lhsTy = .object .object ∨ rhsTy = .object .object then
    return .equality lhs rhs
  else if lhsTy.class?.isSome then
    return .equality (← widen Γ made lhs) rhs
  else if rhsTy.class?.isSome then
    return .equality lhs (← widen Γ made rhs)
  else return .equality lhs rhs

/-- The rule for variables. -/
def symbol (locals : Scopes String Variable) (line : Line) (name : String) :
    Visit ι (Form (Term ι) × Ty) :=
  match Γ.lookup? locals name with
  | some found => return (.symbol name (some found.ref), found.ty)
  | none =>
      if name = Vocabulary.receiver then
        return (.symbol name (some .receiver), .object Γ.currentClass)
      else Body.rejectVariable Γ name line

/-- The rule for a form whose parts are elaborated: the annotated form and its type. -/
def rule (locals : Scopes String Variable) (line : Line) :
    Form (Elaborated ι) → Visit ι (Form (Term ι) × Ty)
  | .block parts => do
      let (parts, ty) ← items .noValue parts
      return (.block parts, ty)
  | .localDefinition name typeName init scope _ =>
      localDefinition Γ made line name typeName init scope
  | .dispatch object name arguments _ => dispatch Γ made line object name arguments
  | .staticDispatch object target name arguments _ _ =>
      staticDispatch Γ made line object target name arguments
  | .conditional test thenBranch elseBranch => conditional Γ line test thenBranch elseBranch
  | .whileLoop test body => do
      let test ← condition test "While" line
      let (body, _) ← part body
      return (.whileLoop test body, .noValue)
  | .cast typeName operand =>
      match Γ.registry.resolve? typeName with
      | some target => do
          let (operand, _) ← part operand
          return (.cast typeName operand, target)
      | none =>
          -- the operand is untouched, and counts as not visited
          return (.cast typeName operand.term, .noValue)
  | .newObject typeName => do
      let ty ← Body.resolve Γ typeName line
      if ty = .int then Step.reject (.illegalConstruction typeName) line
      return (.newObject typeName, ty)
  | .substring subject first last => do
      let (subject, _) ← part subject
      let (first, _) ← part first
      let (last, _) ← part last
      return (.substring subject first last, .string)
  | .assignment target value _ => assignment Γ made locals line target value
  | .addition lhs rhs => addition Γ made line lhs rhs
  | .binary operator lhs rhs => binary Γ line operator lhs rhs
  | .unary operator operand => do
      let (operand, _) ← part operand
      return (.unary operator operand, .int)
  | .equality lhs rhs => return (← equality Γ made line lhs rhs, .int)
  | .symbol name _ => symbol Γ locals line name
  | .intConstant value => return (.intConstant value, .int)
  | .stringConstant value => return (.stringConstant value, .string)
  | .voidConstant => return (.voidConstant, .null)

end Rules

/-- The rule for a form, with the type in the way in which it is recorded. -/
def recorded (Γ : Context) (made : ι) (locals : Scopes String Variable) (line : Line)
    (parts : Form (Elaborated ι)) : Visit ι (Form (Term ι) × Ty × TypeName) := do
  let (form, ty) ← rule Γ made locals line parts
  return (form, ty, ← Body.label Γ ty)

end Visit

/-! ### The recursion -/

/-- What is left of a node whose rule has run. After a failure the node keeps its form, and the
parts visited until then are replaced. -/
def Term.leave (mark : ι) (line : Line) (form : Form (Term ι)) (type : Option TypeName) :
    Except Failure (Form (Term ι) × Ty × TypeName) × List (Term ι) → Elaborated ι
  | (.ok (form, ty, type), _) => ⟨.ok ty, .node mark line form (some type)⟩
  | (.error failure, visited) => ⟨.error failure, .node mark line (form.refill visited) type⟩

mutual

/-- Elaborates a term. Nodes that elaboration makes get the mark `made`. -/
def Term.elaborate (Γ : Context) (made : ι) : Term ι → Scopes String Variable → Elaborated ι
  | .node mark line form type, locals =>
      Term.leave mark line form type
        ((Visit.recorded Γ made locals line (Form.elaborate Γ made form line locals)).runFrom [])

/-- Elaborates the parts of a form, each with the local definitions in force there. -/
def Form.elaborate (Γ : Context) (made : ι) :
    Form (Term ι) → Line → Scopes String Variable → Form (Elaborated ι)
  | .block items, _, locals => .block (Term.elaborateAll Γ made items locals)
  | .localDefinition name typeName init scope recordedType, line, locals =>
      .localDefinition name typeName (Term.elaborate? Γ made init locals)
        (Term.elaborate? Γ made scope (Γ.scopeOf line name typeName locals)) recordedType
  | .dispatch receiver name args recordedMethod, _, locals =>
      .dispatch (Term.elaborate? Γ made receiver locals) name
        (Term.elaborateAll Γ made args locals) recordedMethod
  | .staticDispatch receiver className name args recordedReceiver recordedMethod, _, locals =>
      .staticDispatch (receiver.elaborate Γ made locals) className name
        (Term.elaborateAll Γ made args locals) recordedReceiver recordedMethod
  | .conditional condition thenBranch elseBranch, _, locals =>
      .conditional (condition.elaborate Γ made locals) (thenBranch.elaborate Γ made locals.enter)
        (Term.elaborate? Γ made elseBranch locals.enter)
  | .whileLoop condition body, _, locals =>
      .whileLoop (condition.elaborate Γ made locals) (body.elaborate Γ made locals.enter)
  | .cast typeName operand, _, locals =>
      .cast typeName
        (match Γ.registry.resolve? typeName with
        | some _ => operand.elaborate Γ made locals
        | none => .untouched operand)
  | .newObject typeName, _, _ => .newObject typeName
  | .substring subject first last, _, locals =>
      .substring (subject.elaborate Γ made locals) (first.elaborate Γ made locals)
        (last.elaborate Γ made locals)
  | .assignment target value recordedVariable, _, locals =>
      .assignment target (value.elaborate Γ made locals) recordedVariable
  | .addition lhs rhs, _, locals =>
      .addition (lhs.elaborate Γ made locals) (rhs.elaborate Γ made locals)
  | .binary operator lhs rhs, _, locals =>
      .binary operator (lhs.elaborate Γ made locals) (rhs.elaborate Γ made locals)
  | .unary operator operand, _, locals => .unary operator (operand.elaborate Γ made locals)
  | .equality lhs rhs, _, locals =>
      .equality (lhs.elaborate Γ made locals) (rhs.elaborate Γ made locals)
  | .symbol name recordedVariable, _, _ => .symbol name recordedVariable
  | .intConstant value, _, _ => .intConstant value
  | .stringConstant value, _, _ => .stringConstant value
  | .voidConstant, _, _ => .voidConstant

/-- Elaborates terms, each by itself. -/
def Term.elaborateAll (Γ : Context) (made : ι) :
    List (Term ι) → Scopes String Variable → List (Elaborated ι)
  | [], _ => []
  | t :: ts, locals => t.elaborate Γ made locals :: Term.elaborateAll Γ made ts locals

/-- Elaborates a term, if there is one. -/
def Term.elaborate? (Γ : Context) (made : ι) :
    Option (Term ι) → Scopes String Variable → Option (Elaborated ι)
  | none, _ => none
  | some t, locals => some (t.elaborate Γ made locals)

end

/-- Elaborates a part with the local definitions in force there, or leaves it as it is. -/
def Term.elaborateIn (Γ : Context) (made : ι) (t : Term ι) :
    Option (Scopes String Variable) → Elaborated ι
  | some locals => t.elaborate Γ made locals
  | none => .untouched t

variable {Γ : Context} {made : ι} {locals : Scopes String Variable}

@[simp] theorem Term.elaborateAll_eq_map (ts : List (Term ι)) :
    Term.elaborateAll Γ made ts locals = ts.map (·.elaborate Γ made locals) := by
  induction ts with
  | nil => rfl
  | cons t ts ih => simp [Term.elaborateAll, ih]

@[simp] theorem Term.elaborate?_eq_map (t? : Option (Term ι)) :
    Term.elaborate? Γ made t? locals = t?.map (·.elaborate Γ made locals) := by
  cases t? <;> rfl

/-- Every part is elaborated in its own scope, apart from the others. -/
theorem Form.elaborate_eq_map (form : Form (Term ι)) (line : Line) :
    form.elaborate Γ made line locals =
      (form.scoped Γ line locals).map fun (t, scope?) => t.elaborateIn Γ made scope? := by
  cases form with
  | cast typeName operand =>
    cases h : Γ.registry.resolve? typeName <;>
      simp [Form.elaborate, Form.scoped, Form.map, Term.elaborateIn, h]
  | _ => simp [Form.elaborate, Form.scoped, Form.map, Term.elaborateIn, Function.comp_def]

theorem Form.length_children_elaborate (Γ : Context) (made : ι) (form : Form (Term ι)) (line : Line)
    (locals : Scopes String Variable) :
    (form.elaborate Γ made line locals).children.length = form.children.length := by
  conv_rhs => rw [← Form.scoped_map_fst Γ line locals form]
  rw [Form.elaborate_eq_map, Form.children_map, Form.children_map, List.length_map, List.length_map]

end Lcpl
