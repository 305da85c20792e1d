import Lcpl.Registry.Basic

/-!
# Built-in classes

`Object`, `String` and `IO` are registered before the classes of a program. Their methods are
native: they have no body and stand on line zero.

## Main definitions

* `Registry.builtin` — the registry that holds the built-in classes only
* `Registry.builtinClasses` — the built-in classes as classes of a program, annotated as analysis
  annotates declared ones
-/

namespace Lcpl

/-- The line of everything native. -/
def nativeLine : Line := 0

namespace MethodDef

/-- A native method. -/
def native (owner : ClassId) (name : String) (params : List ParamDef) (returnTypeName : String)
    (returnTy : Ty) : MethodDef :=
  { name, line := nativeLine, owner, params, returnTypeName, returnTy := some returnTy }

end MethodDef

namespace ClassDef

/-- `Object`, the root of the hierarchy. -/
def object : ClassDef :=
  { declared Vocabulary.object nativeLine .builtin none with
    methods :=
      [.native .object "abort" [] Vocabulary.void .noValue,
        .native .object "typeName" [] Vocabulary.string .string,
        .native .object "copy" [] Vocabulary.object (.object .object)] }

/-- `String`, the class of text. -/
def string : ClassDef :=
  { declared Vocabulary.string nativeLine .builtin (some Vocabulary.object) with
    parent := some .object
    methods :=
      [.native .string "length" [] Vocabulary.int .int,
        .native .string "toInt" [] Vocabulary.int .int] }

/-- `IO`, the class of input and output. -/
def inOut : ClassDef :=
  { declared Vocabulary.inOut nativeLine .builtin (some Vocabulary.object) with
    parent := some .object
    methods :=
      [.native .inOut "out" [⟨"msg", Vocabulary.string, .string⟩] Vocabulary.inOut (.object .inOut),
        .native .inOut "in" [] Vocabulary.string .string] }

end ClassDef

namespace Registry

/-- The registry that holds the built-in classes only, each under its fixed number. -/
def builtin : Registry where
  classes := #[.object, .string, .inOut]
  byName :=
    [(Vocabulary.object, .object), (Vocabulary.string, .string), (Vocabulary.inOut, .inOut)]

/-- A native method as a method of a program. -/
def nativeMethod (registry : Registry) (method : MethodDef) : Method :=
  { line := method.line
    name := method.name
    params := method.params.map fun param =>
      { line := method.line, name := param.name, typeName := param.typeName
        recordedType := registry.label? param.ty }
    returnType := method.returnTypeName
    body := none
    recordedReturn := method.returnTy.bind registry.label?
    recordedSelf := (registry.name? method.owner).map (Param.receiver method.line)
    recordedOwner := registry.name? method.owner }

/-- A native class as a class of a program. -/
def nativeClass (registry : Registry) (c : ClassDef) : Class :=
  { line := c.line
    name := c.name
    parent := c.declaredParent
    features := c.methods.map fun method => .method (registry.nativeMethod method)
    recordedParent := c.parent.bind registry.name? }

/-- The built-in classes as classes of a program. -/
def builtinClasses (registry : Registry) : List Class :=
  (registry.classes.toList.filter ClassDef.isBuiltin).map registry.nativeClass

end Registry

end Lcpl
