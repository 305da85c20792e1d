import Lcpl.Json.Field

/-!
# Records

A record is described once, by its fields in their order. It is read from an object, in which each
field stands under its name, or from an array, in which the fields stand in their order. At the end
of an array, fields may be left out that have a default.

A tagged value is a record of one of several forms. Its kind says which one: in an object it is a
field of its own, and in an array it stands in front of the fields.

## Main definitions

* `Json.Record` — the fields of a record and how it is read from its members
* `Json.Record.required`, `Json.Record.nullable`, `Json.Record.optional`,
  `Json.Record.withDefault` — records with one field, from which others are put together
* `Json.Record.ofJson?` — the record that a value stands for
* `Json.tagged?` — the record that a value with a kind stands for
-/

namespace Lcpl.Json

variable {α β : Type}

/-- A field of a record. An array may end in front of it if it is `omissible`. -/
structure Field where
  name : String
  omissible : Bool
deriving DecidableEq, Repr

/-- A record, by its fields in order and by the reader of its members. -/
structure Record (α : Type) where
  fields : List Field
  read : Members → Option α

namespace Record

/-- What is made of a record. -/
def map (f : α → β) (record : Record α) : Record β where
  fields := record.fields
  read members := (record.read members).map f

/-- The fields of two records, one after the other. -/
def seq (first : Record (α → β)) (second : Record α) : Record β where
  fields := first.fields ++ second.fields
  read members := (first.read members).bind fun f => (second.read members).map f

instance : Applicative Record where
  pure x := ⟨[], fun _ => some x⟩
  map := map
  seq first second := first.seq (second ())

/-- A field that must be there. -/
def required (read : Json → Option α) (key : String) : Record α :=
  ⟨[⟨key, false⟩], Json.required read key⟩

/-- A field that may be null, and missing in an object only. -/
def nullable (read : Json → Option α) (key : String) : Record (Option α) :=
  ⟨[⟨key, false⟩], Json.optional read key⟩

/-- A field that may be missing or null. -/
def optional (read : Json → Option α) (key : String) : Record (Option α) :=
  ⟨[⟨key, true⟩], Json.optional read key⟩

/-- A field that stands for a given value when it is missing. -/
def withDefault (default : α) (read : Json → Option α) (key : String) : Record α :=
  ⟨[⟨key, true⟩], Json.withDefault default read key⟩

/-- The names of the fields. -/
def names (record : Record α) : List String := record.fields.map Field.name

/-- The items of an array under the names of the fields. There may not be more items than fields,
and only omissible fields may be left without item. -/
def ofItems? (record : Record α) (items : List Json) : Option Members :=
  if items.length ≤ record.fields.length ∧
      (record.fields.drop items.length).all Field.omissible then
    some (record.names.zip items)
  else
    none

/-- The members of a record, as they are given by an object or by an array. -/
def members? (record : Record α) : Json → Option Members
  | .array items => record.ofItems? items
  | value => Json.members? value

/-- The record that a value stands for. -/
def ofJson? (record : Record α) (value : Json) : Option α :=
  (record.members? value).bind record.read

end Record

/-- The record that a value with a kind stands for, given the record of each kind. -/
def tagged? (kind? : Json → Option String) (form? : String → Option (Record α)) :
    Json → Option α
  | .array [] => none
  | .array (kind :: items) => do
      let record ← form? (← kind? kind)
      record.read (← record.ofItems? items)
  | value => do
      let members ← members? value
      let record ← form? (← required kind? "kind" members)
      record.read members

end Lcpl.Json
