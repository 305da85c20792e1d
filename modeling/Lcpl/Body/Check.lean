import Lcpl.Body.Rules

/-!
# Checking bodies

A body is checked node by node, by the rules of `Body.elaborate`. A node is written back only after
its rule has succeeded, so on the way down to an error every node is left as it was.

## Main definitions

* `Body.checkBelow` — a node and everything below it, nested no deeper than a bound
* `Body.checkExpr` — an expression, with a bound that is large enough
* `Body.checkAgainst`, `Body.checkReturn` — an expression whose value is converted
* `Expectation` — how the value of a root is used
* `Expectation.checkBy`, `Expectation.check` — a root, by a given check of expressions and by
  `Body.checkExpr`
-/

namespace Lcpl

namespace Body

/-- Checks a node and everything below it, nested no deeper than the bound. -/
def checkBelow (Γ : Context) : Nat → ExprId → Body Ty
  | 0, _ => Step.fault .nestedTooDeep
  | depth + 1, id => do
      let { line, expr, .. } ← node id
      emit (.exprVisited expr.kind id line)
      let (expr, ty) ← elaborate Γ (checkBelow Γ depth) line expr
      record id expr (← label Γ ty)
      return ty

/-- How many levels a check may go down beyond the number of nodes. A tree needs none of them. Where
nodes lead back to themselves, the check goes round until a node is rejected. Each round can differ
from the one before: casts are added, and the target of an assignment loses a qualification. The
number is larger than that of the levels that any machine can hold. -/
def spareLevels : Nat := Nat.pow 2 62

/-- Checks an expression. In a tree no path has more nodes than the arena. -/
def checkExpr (Γ : Context) (id : ExprId) : Body Ty := do
  let session ← get
  checkBelow Γ (session.arena.size + spareLevels) id

/-- Checks an expression, converts its value, and yields the node to put into its slot. -/
def checkAgainst (Γ : Context) (root : ExprId) (expected : Ty) (site : Line) : Body ExprId :=
  checkPart Γ (checkExpr Γ) root expected site

/-- Checks the body of a method by a given check of expressions, and converts its value to the
return type. A cast from a number stands at the line of the method; other casts, and errors, stay at
the body. -/
def checkReturnBy (Γ : Context) (check : ExprId → Body Ty) (body : ExprId) (returnTy : Ty)
    (line : Line) : Body ExprId := do
  let ty ← check body
  let bodyLine := (← node body).line
  match Γ.registry.conversion? ty returnTy with
  | some (.cast target) =>
      if ty = .int then wrapInCast Γ body target line
      else convert Γ body ty returnTy bodyLine
  | _ => convert Γ body ty returnTy bodyLine

/-- Checks the body of a method and converts its value to the return type. -/
def checkReturn (Γ : Context) (body : ExprId) (returnTy : Ty) (line : Line) : Body ExprId :=
  checkReturnBy Γ (checkExpr Γ) body returnTy line

end Body

/-- How the value of a root is used. -/
inductive Expectation where
  /-- It is not used. -/
  | anything
  /-- It is the initial value of an attribute, at the line of the attribute. -/
  | initial (ty : Ty) (site : Line)
  /-- A method returns it. The line is that of the method. -/
  | returned (ty : Ty) (line : Line)

namespace Expectation

/-- What a method with the given return type does with the value of its body. Without a return type
there is nothing to convert the value to. -/
def ofReturn (returnTy : Option Ty) (line : Line) : Expectation :=
  match returnTy with
  | none | some .noValue => anything
  | some ty => returned ty line

/-- Checks a root by a given check of expressions, and yields the node to put into its slot. -/
def checkBy (check : Context → ExprId → Body Ty) (Γ : Context) (root : ExprId) :
    Expectation → Body ExprId
  | anything => do
      let _ ← check Γ root
      return root
  | initial ty site => Body.checkPart Γ (check Γ) root ty site
  | returned ty line => Body.checkReturnBy Γ (check Γ) root ty line

/-- Checks a root. -/
abbrev check (Γ : Context) (root : ExprId) (e : Expectation) : Body ExprId :=
  e.checkBy Body.checkExpr Γ root

end Expectation

end Lcpl
