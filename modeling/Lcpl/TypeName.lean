import Lcpl.Vocabulary

/-!
# Types as a program records them

Analysis writes types into the program by name. Three names stand for types that no class
declares; every other name is the name of a class.

## Main definitions

* `TypeName` — a recorded type
* `TypeName.text` and `TypeName.ofText` — its written form, and the type that a text stands for

## Main results

* `TypeName.text_ofText` — reading a text and writing the type gives the text back
* `TypeName.ofText_text` — the other way round, for every type whose name is not one of the
  three reserved words
-/

namespace Lcpl

/-- A type recorded in the program. -/
inductive TypeName where
  /-- Numbers. -/
  | int
  /-- No value at all. -/
  | noValue
  /-- The type of the `void` literal. -/
  | void
  /-- A class, by name. -/
  | object (name : String)
deriving DecidableEq, Repr

namespace TypeName

/-- The written form of a type. -/
def text : TypeName → String
  | int => Vocabulary.int
  | noValue => Vocabulary.noValue
  | void => Vocabulary.void
  | object name => name

/-- The type that a text stands for. -/
def ofText (name : String) : TypeName :=
  if name = Vocabulary.int then int
  else if name = Vocabulary.noValue then noValue
  else if name = Vocabulary.void then void
  else object name

/-- Whether a class may be recorded under this name without being mistaken for another type. -/
def IsClassName (name : String) : Prop :=
  name ≠ Vocabulary.int ∧ name ≠ Vocabulary.noValue ∧ name ≠ Vocabulary.void

instance (name : String) : Decidable (IsClassName name) :=
  inferInstanceAs (Decidable (_ ∧ _))

@[simp] theorem text_ofText (name : String) : (ofText name).text = name := by
  unfold ofText
  split
  · next h => exact h.symm
  · split
    · next h => exact h.symm
    · split
      · next h => exact h.symm
      · rfl

@[simp] theorem ofText_int : ofText Vocabulary.int = int := rfl

@[simp] theorem ofText_noValue : ofText Vocabulary.noValue = noValue := rfl

@[simp] theorem ofText_void : ofText Vocabulary.void = void := rfl

theorem ofText_of_isClassName {name : String} (h : IsClassName name) :
    ofText name = object name := by
  simp [ofText, h.1, h.2.1, h.2.2]

/-- Reading undoes writing, unless a class has taken a reserved word for its name. -/
theorem ofText_text {type : TypeName} (h : ∀ name, type = object name → IsClassName name) :
    ofText type.text = type := by
  cases type with
  | int => rfl
  | noValue => rfl
  | void => rfl
  | object name => exact ofText_of_isClassName (h name rfl)

end TypeName

end Lcpl
