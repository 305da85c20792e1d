import Lcpl.Body.Session

/-!
# Rules

One rule for each form of expression. A rule yields the annotated form of the expression, which says
what its names were resolved to, and the type of its value.

The rules take the check of the parts as an argument, so each of them can be read, and reasoned
about, without the recursion.

## Main definitions

* `Body.checkPart`, `Body.checkArgs` — parts whose value is converted
* `Body.elaborate` — the rule for the form of an expression
-/

namespace Lcpl.Body

variable {α : Type}

/-- The attribute that a qualified target names: what stands behind its first point. -/
def qualified? (target : String) : Option String :=
  match target.toList.dropWhile (· ≠ '.') with
  | [] => none
  | _ :: name => some (String.ofList name)

/-- The target of an assignment without its qualification, and the variable it stands for. A
qualified target names an attribute, whatever the class in front of the point. -/
def assigned (Γ : Context) (locals : Scopes String Variable) (target : String) :
    String × Option Variable :=
  match qualified? target with
  | some name => (name, Γ.attribute? name)
  | none => (target, Γ.lookup? locals target)

section Rules

variable (Γ : Context) (recur : ExprId → Body Ty)

/-- The type of the last item; without items there is no value. -/
def checkItems : Ty → List ExprId → Body Ty
  | ty, [] => pure ty
  | _, item :: items => do
      let ty ← recur item
      checkItems ty items

/-- Checks a part and converts its value to an expected type. -/
def checkPart (id : ExprId) (expected : Ty) (site : Line) : Body ExprId := do
  let ty ← recur id
  convert Γ id ty expected site

/-- Checks arguments in turn and converts each to the type of its parameter. -/
def checkArgs (line : Line) : List ExprId → List ParamDef → Body (List ExprId)
  | [], [] => pure []
  | arg :: args, param :: params => do
      let arg ← checkPart Γ recur arg param.ty line
      let args ← checkArgs line args params
      return arg :: args
  | _, _ => Step.fault .unevenArguments

/-- Finds the method of a call in the class of the receiver, counts the arguments and converts
them. -/
def checkCall (line : Line) (receiver : Ty) (name : String) (args : List ExprId) :
    Body (MethodDef × List ExprId) :=
  match receiver.class?.bind (Γ.registry.lookupMethod? · name) with
  | none => do
      Step.reject (.methodNotFound name (← typeName Γ receiver)) line
  | some method => do
      if args.length < method.params.length then
        Step.reject (.notEnoughArguments name) line
      if args.length > method.params.length then
        Step.reject (.tooManyArguments name) line
      let args ← checkArgs Γ recur line args method.params
      return (method, args)

/-- What a call was resolved to. -/
def methodRef {σ : Type} (method : MethodDef) : Step σ MethodRef := do
  return { className := ← className Γ method.owner, name := method.name }

/-- The receiver of a call. Without one, the call is on `self`, and a node for it is made at the
line of the feature. -/
def checkReceiver : Option ExprId → Body (ExprId × Ty)
  | some receiver => return (receiver, ← recur receiver)
  | none => do
      let ty := Ty.object Γ.currentClass
      let self ← alloc Γ.line (.symbol Vocabulary.receiver (some .receiver)) (← label Γ ty)
      return (self, ty)

/-- A condition has to be a number. -/
def checkCondition (condition : ExprId) (construct : String) (line : Line) : Body Unit := do
  if (← recur condition) ≠ .int then
    Step.reject (.conditionMustBeInt construct) line

/-- The rule for local definitions. The variable is not visible in its own initial value. -/
def checkLocal (line : Line) (name declaredType : String) (init scope : Option ExprId) :
    Body (Expr × Ty) := do
  let declared ← resolve Γ declaredType line
  let type ← label Γ declared
  let init ← init.mapM fun init => checkPart Γ recur init declared line
  let ty ← inScope do
    define name line declared
    match scope with
    | some scope => recur scope
    | none => return Ty.noValue
  return (.localDefinition name declaredType init scope (some type), ty)

/-- The rule for calls. -/
def checkDispatch (line : Line) (receiver : Option ExprId) (name : String) (args : List ExprId) :
    Body (Expr × Ty) := do
  let (receiver, ty) ← checkReceiver Γ recur receiver
  let (method, args) ← checkCall Γ recur line ty name args
  let ref ← methodRef Γ method
  return (.dispatch (some receiver) name args (some ref), method.returnTy.getD .noValue)

/-- The rule for calls in a named class, which must be the class of the receiver or one above it.
The value has the type of that class. -/
def checkStaticDispatch (line : Line) (receiver : ExprId) (target name : String)
    (args : List ExprId) : Body (Expr × Ty) := do
  let receiverTy ← recur receiver
  let targetTy ← resolve Γ target line
  if targetTy ≠ receiverTy && !Γ.registry.isStrictlyAbove targetTy receiverTy then
    Step.reject (.cannotConvertInStaticDispatch (← typeName Γ receiverTy) target) line
  let type ← label Γ targetTy
  let (method, args) ← checkCall Γ recur line targetTy name args
  let ref ← methodRef Γ method
  return (.staticDispatch receiver target name args (some type) (some ref), targetTy)

/-- The rule for choices. Each branch has a scope of its own. -/
def checkConditional (line : Line) (condition thenBranch : ExprId) (elseBranch : Option ExprId) :
    Body Ty := do
  checkCondition recur condition "If" line
  let thenTy ← inScope (recur thenBranch)
  match elseBranch with
  | some elseBranch =>
      let elseTy ← inScope (recur elseBranch)
      return Γ.registry.join thenTy elseTy
  | none => return .noValue

/-- The rule for assignments. A qualified target loses its qualification. -/
def checkAssignment (line : Line) (target : String) (value : ExprId) : Body (Expr × Ty) := do
  let session ← get
  match assigned Γ session.scopes target with
  | (target, none) => rejectVariable Γ target line
  | (target, some found) =>
      let value ← checkPart Γ recur value found.ty line
      return (.assignment target value (some found.ref), found.ty)

/-- Rejects an addition because of one operand, at the line of that operand. -/
def rejectOperand (operand : ExprId) (ty other : Ty) : Body α := do
  let line := (← node operand).line
  if other = .string then
    Step.reject (.cannotConvert (← typeName Γ ty) Vocabulary.string) line
  else Step.reject .cannotConvertAddition line

/-- The rule for additions. A number added to a text is turned into a text. -/
def checkAddition (line : Line) (lhs rhs : ExprId) : Body (Expr × Ty) := do
  let lhsTy ← recur lhs
  let rhsTy ← recur rhs
  if lhsTy = rhsTy then
    return (.addition lhs rhs, lhsTy)
  else if lhsTy = .int ∧ rhsTy = .string then
    let lhs ← wrapInCast Γ lhs .string line
    return (.addition lhs rhs, .string)
  else if lhsTy = .string ∧ rhsTy = .int then
    let rhs ← wrapInCast Γ rhs .string line
    return (.addition lhs rhs, .string)
  else if lhsTy ≠ .int ∧ lhsTy ≠ .string then
    rejectOperand Γ lhs lhsTy rhsTy
  else if rhsTy ≠ .int ∧ rhsTy ≠ .string then
    rejectOperand Γ rhs rhsTy lhsTy
  else Step.fault .uncoveredAddition

/-- The rule for other operators on two numbers. -/
def checkBinary (line : Line) (operator : BinaryOperator) (lhs rhs : ExprId) : Body Unit := do
  let lhsTy ← recur lhs
  let rhsTy ← recur rhs
  emit (.operatorChecked operator line)
  if lhsTy ≠ .int then
    Step.reject (.cannotConvert (← typeName Γ lhsTy) Vocabulary.int) line
  if rhsTy ≠ .int then
    Step.reject (.cannotConvert (← typeName Γ rhsTy) Vocabulary.int) line

/-- Wraps one side of a comparison in a cast to `Object`, at its own line. -/
def widen (side : ExprId) : Body ExprId := do
  wrapInCast Γ side (.object .object) (← node side).line

/-- The rule for equality. A number is compared with a text as a text. Of two other types, the first
that is a class is widened to `Object`, unless one side is of that class already. -/
def checkEquality (line : Line) (lhs rhs : ExprId) : Body Expr := do
  let lhsTy ← recur lhs
  let rhsTy ← recur rhs
  if lhsTy = rhsTy then
    return .equality lhs rhs
  else if lhsTy = .int ∧ rhsTy = .string then
    return .equality (← wrapInCast Γ lhs .string line) rhs
  else if lhsTy = .string ∧ rhsTy = .int then
    return .equality lhs (← wrapInCast Γ rhs .string line)
  else if lhsTy = .int ∨ rhsTy = .int then
    Step.reject (.invalidOperands "==") line
  else if lhsTy = .object .object ∨ rhsTy = .object .object then
    return .equality lhs rhs
  else if lhsTy.class?.isSome then
    return .equality (← widen Γ lhs) rhs
  else if rhsTy.class?.isSome then
    return .equality lhs (← widen Γ rhs)
  else return .equality lhs rhs

/-- The rule for variables. `self` is the receiver, unless something else has taken the name. -/
def checkSymbol (line : Line) (name : String) : Body (Expr × Ty) := do
  let session ← get
  match Γ.lookup? session.scopes name with
  | some found => return (.symbol name (some found.ref), found.ty)
  | none =>
      if name = Vocabulary.receiver then
        return (.symbol name (some .receiver), .object Γ.currentClass)
      else rejectVariable Γ name line

/-- The rule for the form of an expression: its annotated form and its type. -/
def elaborate (line : Line) : Expr → Body (Expr × Ty)
  | .block items => return (.block items, ← checkItems recur .noValue items)
  | .localDefinition name typeName init scope _ => checkLocal Γ recur line name typeName init scope
  | .dispatch receiver name args _ => checkDispatch Γ recur line receiver name args
  | .staticDispatch receiver target name args _ _ =>
      checkStaticDispatch Γ recur line receiver target name args
  | .conditional condition thenBranch elseBranch => do
      let ty ← checkConditional Γ recur line condition thenBranch elseBranch
      return (.conditional condition thenBranch elseBranch, ty)
  | .whileLoop condition body => do
      checkCondition recur condition "While" line
      let _ ← inScope (recur body)
      return (.whileLoop condition body, .noValue)
  | .cast typeName operand =>
      match Γ.registry.resolve? typeName with
      | some target => do
          let _ ← recur operand
          return (.cast typeName operand, target)
      | none => do
          emit (.castUnchecked line typeName)
          return (.cast typeName operand, .noValue)
  | .newObject typeName => do
      let ty ← resolve Γ typeName line
      if ty = .int then Step.reject (.illegalConstruction typeName) line
      return (.newObject typeName, ty)
  | .substring subject first last => do
      let _ ← recur subject
      let firstTy ← recur first
      let lastTy ← recur last
      if firstTy ≠ .int ∨ lastTy ≠ .int then emit (.boundsNotInt line)
      return (.substring subject first last, .string)
  | .assignment target value _ => checkAssignment Γ recur line target value
  | .addition lhs rhs => checkAddition Γ recur line lhs rhs
  | .binary operator lhs rhs => do
      checkBinary Γ recur line operator lhs rhs
      return (.binary operator lhs rhs, .int)
  | .unary operator operand => do
      if (← recur operand) ≠ .int then emit (.operandNotInt line operator)
      return (.unary operator operand, .int)
  | .equality lhs rhs => return (← checkEquality Γ recur line lhs rhs, .int)
  | .symbol name _ => checkSymbol Γ line name
  | .intConstant value => return (.intConstant value, .int)
  | .stringConstant value => return (.stringConstant value, .string)
  | .voidConstant => return (.voidConstant, .null)

end Rules

end Lcpl.Body
