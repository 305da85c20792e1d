import Lcpl.Line

/-!
# What analysis rejects

Analysis stops at the first error and reports it with the line of the offending node.

## Main definitions

* `SemanticError` — the causes
* `SemanticError.message` — their wording
-/

namespace Lcpl

/-- The causes for which analysis rejects a program. -/
inductive SemanticError where
  | classNotFound (className : String)
  | duplicateClass (className : String)
  | duplicateMethod (className method : String)
  | duplicateAttribute (className attributeName : String)
  | attributeRedefined (attributeName : String)
  | attributeNotFound (attributeName className : String)
  | methodNotFound (method className : String)
  | notEnoughArguments (method : String)
  | tooManyArguments (method : String)
  | cannotConvert (source target : String)
  | cannotConvertInStaticDispatch (source target : String)
  | invalidOperands (operator : String)
  | cannotConvertAddition
  | illegalConstruction (className : String)
  | inheritanceCycle (className : String)
  | cannotInheritString
  | overrideArityMismatch
  | overrideParamTypeMismatch (param : String)
  | overrideReturnTypeMismatch
  | conditionMustBeInt (construct : String)
deriving DecidableEq, Repr

/-- The wording of an error. -/
def SemanticError.message : SemanticError → String
  | classNotFound className => "Class " ++ className ++ " not found."
  | duplicateClass className => "A class with the same name already exists : " ++ className
  | duplicateMethod className method =>
      "A method with the same name already exists in class " ++ className ++ " : " ++ method
  | duplicateAttribute className attributeName =>
      "An attribute with the same name already exists in class " ++ className ++ " : " ++
        attributeName
  | attributeRedefined attributeName => "Attribute " ++ attributeName ++ " is redefined."
  | attributeNotFound attributeName className =>
      "Attribute " ++ attributeName ++ " not found in class " ++ className
  | methodNotFound method className => "Method " ++ method ++ " not found in class " ++ className
  | notEnoughArguments method => "Not enough arguments in method call " ++ method
  | tooManyArguments method => "Too many arguments in method call " ++ method
  | cannotConvert source target =>
      "Cannot convert a value of type " ++ source ++ " into " ++ target
  | cannotConvertInStaticDispatch source target =>
      "Cannot convert from " ++ source ++ " to " ++ target ++ " in StaticDispatch"
  | invalidOperands operator => "Invalid type of parameters for " ++ operator ++ " expression"
  | cannotConvertAddition => "Cannot convert '+' expression to Int or String"
  | illegalConstruction className => "Illegal construction : new " ++ className
  | inheritanceCycle className => "Class " ++ className ++ " recursively inherits itself."
  | cannotInheritString => "A class cannot inherit a String"
  | overrideArityMismatch => "Overloaded method has a different number of parameters"
  | overrideParamTypeMismatch param =>
      "Parameter " ++ param ++ " has a different type in overloaded method."
  | overrideReturnTypeMismatch => "Return type changed in overloaded method."
  | conditionMustBeInt construct => construct ++ " condition must be Int"

end Lcpl
