import Mathlib.Data.List.Basic
import Lcpl.Json.Record
import Lcpl.Proofs.Json.Field

/-!
# What records are read from

A record is put together from fields, and its reader goes by the same steps. What an object and an
array have in common is that they give members to read: in an array these are its items, under the
names of the fields.

## Main results

* `Json.Record.read_map`, `Json.Record.read_seq` — the reader of a record, step by step
* `Json.Record.exists_read_map`, `Json.Record.exists_read_seq` — a record that was read, field by
  field
* `Json.Record.ofItems?_eq_some_iff` — the members that an array gives
* `Json.exists_read_of_tagged?` — a tagged value is the record of its kind
-/

namespace Lcpl.Json

variable {α β : Type}

namespace Record

variable {record : Record α} {members : Members} {items : List Json}

/-! ### Reading step by step -/

@[simp] theorem read_pure (x : α) : (pure x : Record α).read members = some x := rfl

@[simp] theorem read_map (f : α → β) : (f <$> record).read members = (record.read members).map f :=
  rfl

@[simp] theorem read_seq (first : Record (α → β)) : (first <*> record).read members =
    (first.read members).bind fun f => (record.read members).map f := rfl

section

variable (read : Json → Option α) (key : String)

@[simp] theorem read_required : (required read key).read = Json.required read key := rfl

@[simp] theorem read_nullable : (nullable read key).read = Json.optional read key := rfl

@[simp] theorem read_optional : (optional read key).read = Json.optional read key := rfl

@[simp] theorem read_withDefault (default : α) :
    (withDefault default read key).read = Json.withDefault default read key := rfl

end

/-- The form in which a record is taken apart. -/
theorem read_eq_some_iff {x : α} : record.read members = some x ↔
    ∃ y, record.read members = some y ∧ y = x := by
  rw [exists_eq_right]

section

variable {f : α → β} {first : Record (α → β)} {P : β → Prop}

theorem exists_read_map : (∃ x, (f <$> record).read members = some x ∧ P x) ↔
    ∃ y, record.read members = some y ∧ P (f y) := by
  simp only [read_map, Option.map_eq_some_iff, exists_exists_and_eq_and]

/-- What is known of a result is known of what it was made from. -/
theorem exists_read_seq : (∃ x, (first <*> record).read members = some x ∧ P x) ↔
    ∃ f, first.read members = some f ∧ ∃ y, record.read members = some y ∧ P (f y) := by
  simp only [read_seq, Option.bind_eq_some_iff, Option.map_eq_some_iff]
  constructor
  · rintro ⟨_, ⟨f, hf, y, hy, rfl⟩, hP⟩
    exact ⟨f, hf, y, hy, hP⟩
  · rintro ⟨f, hf, y, hy, hP⟩
    exact ⟨f y, ⟨f, hf, y, hy, rfl⟩, hP⟩

end

/-! ### Objects and arrays -/

@[simp] theorem ofJson?_object : record.ofJson? (.object members) = record.read members := rfl

/-- An array gives its items, under the names of the fields. -/
theorem ofItems?_eq_some_iff : record.ofItems? items = some members ↔
    (items.length ≤ record.fields.length ∧
      (record.fields.drop items.length).all Field.omissible = true) ∧
    record.names.zip items = members := by
  rw [ofItems?, Option.ite_none_right_eq_some, Option.some_inj]

/-- The number of items decides whether an array is read. -/
theorem ofItems?_congr {items' : List Json} (h : record.ofItems? items = some members)
    (hlength : items'.length = items.length) :
    record.ofItems? items' = some (record.names.zip items') := by
  rw [ofItems?_eq_some_iff, hlength]
  exact ⟨(ofItems?_eq_some_iff.mp h).1, rfl⟩

theorem exists_read_of_ofJson? {value : Json} {x : α} (h : record.ofJson? value = some x) :
    ∃ members, record.members? value = some members ∧ record.read members = some x :=
  Option.bind_eq_some_iff.mp h

end Record

section

variable {kind? : Json → Option String} {form? : String → Option (Record α)}

@[simp] theorem tagged?_object {members : Members} : tagged? kind? form? (.object members) =
    (required kind? "kind" members).bind fun kind =>
      (form? kind).bind fun record => record.read members := rfl

@[simp] theorem tagged?_array {kind : Json} {items : List Json} :
    tagged? kind? form? (.array (kind :: items)) = (kind? kind).bind fun kind =>
      (form? kind).bind fun record => (record.ofItems? items).bind record.read := rfl

/-- A tagged value is a record of its kind, read from some members. -/
theorem exists_read_of_tagged? {value : Json} {x : α} (h : tagged? kind? form? value = some x) :
    ∃ kind record members, form? kind = some record ∧ record.read members = some x := by
  match value with
  | .object members =>
    simp only [tagged?_object, Option.bind_eq_some_iff] at h
    obtain ⟨kind, -, record, hrecord, hx⟩ := h
    exact ⟨kind, record, members, hrecord, hx⟩
  | .array (kind :: items) =>
    simp only [tagged?_array, Option.bind_eq_some_iff] at h
    obtain ⟨kind, -, record, hrecord, members, -, hx⟩ := h
    exact ⟨kind, record, members, hrecord, hx⟩

end

/-! ### What is read -/

namespace Gives

variable {P : α → Prop}

theorem record {record : Record α} (h : ∀ members x, record.read members = some x → P x) :
    Gives P record.ofJson? := by
  intro value x hx
  obtain ⟨members, -, hread⟩ := Record.exists_read_of_ofJson? hx
  exact h members x hread

end Gives

end Lcpl.Json
