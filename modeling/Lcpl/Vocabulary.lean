/-!
# Names with a fixed meaning

The names that the language itself gives a meaning to: the entry point, the built-in classes, the
words for types that no class declares, and the receiver.
-/

namespace Lcpl.Vocabulary

/-- The class that holds the entry point. -/
def mainClass : String := "Main"

/-- The method where a program starts. -/
def mainMethod : String := "main"

/-- The root of the class hierarchy. -/
def object : String := "Object"

/-- The class of text. -/
def string : String := "String"

/-- The class of input and output. -/
def inOut : String := "IO"

/-- The type of numbers, which is not a class. -/
def int : String := "Int"

/-- The declared return type of a method without a value, and the type of the `void` literal. -/
def void : String := "void"

/-- The type of an expression without a value. -/
def noValue : String := "(none)"

/-- The receiver of the method being run. -/
def receiver : String := "self"

end Lcpl.Vocabulary
