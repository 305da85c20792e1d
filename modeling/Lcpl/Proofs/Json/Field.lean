import Mathlib.Data.List.Basic
import Lcpl.Json.Field
import Lcpl.Proofs.Json.Written

/-!
# Fields that were written

The reader of a field sees nothing of an object but the values under the key. It finds the value
that was written there, if no other member has the key.

Not every value is fit to be written: an integer may be too large, and some readers refuse values
that are nested too deeply. What is fit is said of arrays and objects by their parts.

## Main definitions

* `Json.field?` — what an optional field stands for, by the values that stand there
* `Json.Gives` — a reader whose results have a property
* `Json.Shallow` — a value that is read back from its text, nested no deeper than a bound

## Main results

* `Json.field?_orNull`, `Json.field?_present`, `Json.listOf?_map` — fields and lists that were
  written
* `Json.Gives.required`, `Json.Gives.optional`, `Json.Gives.withDefault` — fields that were read
* `Json.shallow_array_iff`, `Json.shallow_object_iff` — fitness by parts
-/

namespace Lcpl.Json

variable {α β : Type} {key : String} {members : Members} {read : Json → Option β} {write : α → Json}
  {f : α → β}

/-! ### The values under a key -/

@[simp] theorem values_nil : values key [] = [] := rfl

@[simp] theorem values_cons {name : String} {value : Json} :
    values key ((name, value) :: members) =
      if name = key then value :: values key members else values key members := by
  by_cases hname : name = key <;> simp [values, hname]

@[simp] theorem values_append {members' : Members} :
    values key (members ++ members') = values key members ++ values key members' :=
  List.filterMap_append

@[simp] theorem values_present {name : String} {o : Option α} :
    values key (present name write o) = if name = key then (o.map write).toList else [] := by
  by_cases hname : name = key <;> cases o <;> simp [present, hname]

theorem values_eq_nil (h : key ∉ members.map Prod.fst) : values key members = [] := by
  refine List.filterMap_eq_nil_iff.mpr fun member hmember => ?_
  have hname : member.1 ≠ key := fun hname => h (hname ▸ List.mem_map_of_mem hmember)
  exact if_neg hname

/-- What a field that may be missing or null stands for, by the values under its key. -/
def field? (read : Json → Option β) : List Json → Option (Option β)
  | [] => some none
  | [.null] => some none
  | [value] => (read value).map some
  | _ => none

theorem optional_eq_field? : optional read key members = field? read (values key members) := rfl

theorem field?_singleton {value : Json} (hnull : value ≠ .null) :
    field? read [value] = (read value).map some := by
  unfold field?
  split <;> simp_all

/-- A field that is null where it has no value. -/
theorem field?_orNull {o : Option α} (hnull : ∀ x, write x ≠ .null)
    (hread : ∀ x ∈ o, read (write x) = some (f x)) :
    field? read [orNull write o] = some (o.map f) := by
  cases o with
  | none => rfl
  | some x =>
    rw [orNull, field?_singleton (hnull x), hread x rfl]
    rfl

/-- A field that is left out where it has no value. -/
theorem field?_present {o : Option α} (hnull : ∀ x, write x ≠ .null)
    (hread : ∀ x ∈ o, read (write x) = some (f x)) :
    field? read (o.map write).toList = some (o.map f) := by
  cases o with
  | none => rfl
  | some x =>
    rw [Option.map_some, Option.toList_some, field?_singleton (hnull x), hread x rfl]
    rfl

theorem listOf?_map {xs : List α} (hread : ∀ x ∈ xs, read (write x) = some (f x)) :
    listOf? read (.array (xs.map write)) = some (xs.map f) := by
  rw [listOf?]
  induction xs with
  | nil => rfl
  | cons x xs ih =>
    rw [List.forall_mem_cons] at hread
    simp [hread.1, ih hread.2]

section

variable {read : Json → Option α}

theorem field?_orNull_self {o : Option α} (hnull : ∀ x, write x ≠ .null)
    (hread : ∀ x ∈ o, read (write x) = some x) : field? read [orNull write o] = some o := by
  simpa using field?_orNull (f := id) hnull hread

theorem field?_present_self {o : Option α} (hnull : ∀ x, write x ≠ .null)
    (hread : ∀ x ∈ o, read (write x) = some x) : field? read (o.map write).toList = some o := by
  simpa using field?_present (f := id) hnull hread

theorem listOf?_map_self {xs : List α} (hread : ∀ x ∈ xs, read (write x) = some x) :
    listOf? read (.array (xs.map write)) = some xs := by
  simpa using listOf?_map (f := id) hread

end

/-! ### What is read -/

/-- Whatever the reader makes of a value has the property. -/
def Gives (P : β → Prop) (read : Json → Option β) : Prop := ∀ value x, read value = some x → P x

namespace Gives

variable {P : β → Prop} (h : Gives P read)
include h

theorem required {x : β} (hx : required read key members = some x) : P x := by
  unfold Json.required at hx
  split at hx
  · exact h _ x hx
  · cases hx

theorem optional {o : Option β} (ho : optional read key members = some o) : ∀ x ∈ o, P x := by
  unfold Json.optional at ho
  split at ho
  · cases ho
    exact nofun
  · cases ho
    exact nofun
  · intro x hx
    obtain ⟨y, hy, rfl⟩ := Option.map_eq_some_iff.mp ho
    obtain rfl := Option.some_inj.mp hx
    exact h _ y hy
  · cases ho

theorem withDefault {default x : β} (hdefault : P default)
    (hx : withDefault default read key members = some x) : P x := by
  unfold Json.withDefault at hx
  split at hx
  · cases hx
    exact hdefault
  · exact h _ x hx
  · cases hx

theorem listOf? : Gives (fun xs => ∀ x ∈ xs, P x) (listOf? read) := by
  intro value xs hxs
  unfold Json.listOf? at hxs
  split at hxs
  · next items =>
    induction items generalizing xs with
    | nil =>
      cases hxs
      exact nofun
    | cons item items ih =>
      rw [List.mapM_cons, Option.bind_eq_bind, Option.bind_eq_some_iff] at hxs
      obtain ⟨x, hx, htail⟩ := hxs
      obtain ⟨rest, hrest, hcons⟩ := Option.bind_eq_some_iff.mp htail
      cases hcons
      exact List.forall_mem_cons.mpr ⟨h item x hx, ih rest hrest⟩
  · cases hxs

end Gives

/-! ### Values that are fit to be written -/

/-- The value is read back from its text, and has no more than the given number of levels. -/
def Shallow (levels : Nat) (value : Json) : Prop :=
  value.isPlain levels = true ∧ ∀ token ∈ value.tokens, token.IsExact

variable {levels : Nat}

@[simp] theorem shallow_null : Shallow levels .null := ⟨rfl, List.forall_mem_singleton.mpr trivial⟩

@[simp] theorem shallow_string (value : String) : Shallow levels (.string value) :=
  ⟨rfl, List.forall_mem_singleton.mpr trivial⟩

theorem shallow_integer {value : Int} (h : value.natAbs < UInt64.size) :
    Shallow levels (.integer value) := ⟨rfl, List.forall_mem_singleton.mpr h⟩

theorem itemsPlain_iff {items : List Json} :
    itemsPlain levels items = true ↔ ∀ item ∈ items, item.isPlain levels = true := by
  induction items with
  | nil => simp [itemsPlain]
  | cons item items ih => simp [itemsPlain, ih]

theorem membersPlain_iff :
    membersPlain levels members = true ↔ ∀ m ∈ members, m.2.isPlain levels = true := by
  induction members with
  | nil => simp [membersPlain]
  | cons m members ih => simp [membersPlain, ih]

theorem forall_itemTokens_iff {items : List Json} :
    (∀ token ∈ itemTokens items, token.IsExact) ↔
      ∀ item ∈ items, ∀ token ∈ item.tokens, token.IsExact := by
  induction items with
  | nil => simp [itemTokens, Token.IsExact]
  | cons item items ih =>
    rw [itemTokens, List.forall_mem_cons, List.forall_mem_append, ih, List.forall_mem_cons]
    simp [Token.IsExact]

theorem forall_memberTokens_iff :
    (∀ token ∈ memberTokens members, token.IsExact) ↔
      ∀ m ∈ members, ∀ token ∈ m.2.tokens, token.IsExact := by
  induction members with
  | nil => simp [memberTokens, Token.IsExact]
  | cons m members ih =>
    rw [memberTokens, List.forall_mem_cons, List.forall_mem_cons, List.forall_mem_cons,
      List.forall_mem_append, ih, List.forall_mem_cons]
    simp [Token.IsExact]

theorem shallow_array_iff {items : List Json} :
    Shallow (levels + 1) (.array items) ↔ ∀ item ∈ items, Shallow levels item := by
  have hplain : isPlain (levels + 1) (.array items) = itemsPlain levels items := by simp [isPlain]
  have htokens : (∀ token ∈ (array items).tokens, token.IsExact) ↔
      ∀ item ∈ items, ∀ token ∈ item.tokens, token.IsExact := by
    cases items with
    | nil => simp [tokens, Token.IsExact]
    | cons item items =>
      rw [tokens, List.forall_mem_cons, List.forall_mem_append, forall_itemTokens_iff,
        List.forall_mem_cons]
      simp [Token.IsExact]
  rw [Shallow, hplain, itemsPlain_iff, htokens, ← forall₂_and]
  rfl

theorem shallow_object_iff :
    Shallow (levels + 1) (.object members) ↔ ∀ m ∈ members, Shallow levels m.2 := by
  have hplain : isPlain (levels + 1) (.object members) = membersPlain levels members := by
    simp [isPlain]
  have htokens : (∀ token ∈ (object members).tokens, token.IsExact) ↔
      ∀ m ∈ members, ∀ token ∈ m.2.tokens, token.IsExact := by
    cases members with
    | nil => simp [tokens, Token.IsExact]
    | cons m members =>
      rw [tokens, List.forall_mem_cons, List.forall_mem_cons, List.forall_mem_cons,
        List.forall_mem_append, forall_memberTokens_iff, List.forall_mem_cons]
      simp [Token.IsExact]
  rw [Shallow, hplain, membersPlain_iff, htokens, ← forall₂_and]
  rfl

@[simp] theorem shallow_orNull_iff {o : Option α} :
    Shallow levels (orNull write o) ↔ ∀ x ∈ o, Shallow levels (write x) := by
  cases o <;> simp [orNull]

theorem shallow_present_iff {o : Option α} :
    (∀ m ∈ present key write o, Shallow levels m.2) ↔ ∀ x ∈ o, Shallow levels (write x) := by
  cases o <;> simp [present]

end Lcpl.Json
