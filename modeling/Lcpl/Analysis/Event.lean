import Lcpl.Tree.Expr

/-!
# Events of an analysis

While it runs, analysis reports what it does. The reports do not influence it; a reader chooses how
severe an event must be to be shown.

## Main definitions

* `Severity` — how important an event is
* `Event` — what can be reported
* `Event.severity`, `Event.message` — its importance and wording
* `Event.shown` — the lines shown to a reader who asked for a severity
-/

namespace Lcpl

/-- How important an event is. -/
inductive Severity where
  | error
  | warning
  | info
  | debug
  | trace
deriving DecidableEq, Repr

namespace Severity

/-- The label in front of a message. -/
def label : Severity → String
  | error => "ERROR"
  | warning => "WARN"
  | info => "INFO"
  | debug => "DEBUG"
  | trace => "TRACE"

/-- The position in the list of severities, the most severe first. -/
def rank : Severity → Nat
  | error => 0
  | warning => 1
  | info => 2
  | debug => 3
  | trace => 4

end Severity

/-- What analysis reports while it runs. -/
inductive Event where
  | classesRegistered (count : Nat)
  | hierarchyResolved
  | methodResolved (className method : String)
  | returnTypeUnresolved (typeName className method : String)
  | signaturesResolved
  | hierarchyAcyclic
  | bodyStarted (className : String)
  | exprVisited (kind : String) (id : ExprId) (line : Line)
  | operatorChecked (operator : BinaryOperator) (line : Line)
  | castInserted (cast : ExprId) (typeName : String) (operand : ExprId)
  | castUnchecked (line : Line) (typeName : String)
  | boundsNotInt (line : Line)
  | operandNotInt (line : Line) (operator : UnaryOperator)
  | bodiesChecked
  | entryFound
deriving DecidableEq, Repr

namespace Event

/-- How important an event is. -/
def severity : Event → Severity
  | returnTypeUnresolved .. => .warning
  | castUnchecked .. => .warning
  | boundsNotInt .. => .warning
  | operandNotInt .. => .warning
  | methodResolved .. => .trace
  | exprVisited .. => .trace
  | operatorChecked .. => .trace
  | castInserted .. => .trace
  | _ => .debug

/-- The wording of an event. -/
def message : Event → String
  | classesRegistered count => "registered " ++ toString count ++ " user classes"
  | hierarchyResolved => "class hierarchy resolved"
  | methodResolved className method => "method " ++ className ++ "." ++ method
  | returnTypeUnresolved typeName className method =>
      "return type " ++ typeName ++ " of " ++ className ++ "." ++ method ++
        " does not resolve, leaving it unchecked"
  | signaturesResolved => "feature signatures resolved"
  | hierarchyAcyclic => "no inheritance cycles"
  | bodyStarted className => "checking body of class " ++ className
  | exprVisited kind id line => kind ++ " " ++ id.text ++ " in line " ++ toString line
  | operatorChecked operator line =>
      "operator " ++ operator.sign ++ " in line " ++ toString line
  | castInserted cast typeName operand =>
      "cast " ++ cast.text ++ " to " ++ typeName ++ " around " ++ operand.text
  | castUnchecked line typeName =>
      "line " ++ toString line ++ ": cast to unknown type " ++ typeName ++ " is not checked"
  | boundsNotInt line => "line " ++ toString line ++ ": substring bounds are not Int"
  | operandNotInt line operator =>
      "line " ++ toString line ++ ": operand of unary " ++ operator.sign ++ " is not Int"
  | bodiesChecked => "class bodies checked"
  | entryFound => "found " ++ Vocabulary.mainClass ++ "." ++ Vocabulary.mainMethod

/-- An event as a line of text. -/
def line (event : Event) : String := event.severity.label ++ " " ++ event.message

/-- The lines of the events that are at least as severe as a reader asked for. -/
def shown (level : Severity) (log : Array Event) : List String :=
  (log.toList.filter fun event => event.severity.rank ≤ level.rank).map line

end Event

end Lcpl
