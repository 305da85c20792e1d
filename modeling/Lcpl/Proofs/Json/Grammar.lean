import Mathlib.Data.List.Basic
import Lcpl.Json.Value
import Lcpl.Proofs.Json.Spelling

/-!
# The grammar of values

The tokens of an array are those of its items with commas between them, in brackets; the tokens of
an object are those of its members, in braces. The reader accepts exactly the tokens that this
grammar gives to a value, and returns the value.

## Main definitions

* `Json.Spells` — the tokens of a value
* `Json.Spelled` — the texts of a value: its tokens, with any white space between them

## Main results

* `Json.Spells.readValue_append`, `Json.exists_spells_of_readValue` — what the reader takes from the
  front of a list of tokens
* `Json.ofTokens?_eq_some_iff`, `Json.parse?_eq_some_iff` — the tokens and the texts of a value are
  those from which it is read
-/

namespace Lcpl.Json

/-- The token of a key. A key that stands for no text is an unpaired one. -/
def keyToken : Option String → Token
  | some key => .string key
  | none => .unpaired

/-- The tokens of a member. -/
def memberSpelling (m : Option String × Json × List Token) : List Token :=
  keyToken m.1 :: .colon :: m.2.2

/-- The tokens spell the value. -/
inductive Spells : Json → List Token → Prop where
  | null : Spells .null [.null]
  | bool (value : Bool) : Spells (.bool value) [.bool value]
  | integer (value : Int) : Spells (.integer value) [.integer value]
  | decimal (spelling : List Char) : Spells (.decimal spelling) [.decimal spelling]
  | string (value : String) : Spells (.string value) [.string value]
  | unpaired : Spells .invalid [.unpaired]
  | outOfRange : Spells .invalid [.outOfRange]
  | array (items : List (Json × List Token)) (h : ∀ item ∈ items, Spells item.1 item.2) :
      Spells (.array (items.map Prod.fst))
        (.openBracket :: ([.comma].intercalate (items.map Prod.snd) ++ [.closeBracket]))
  | object (members : List (Option String × Json × List Token))
      (h : ∀ m ∈ members, Spells m.2.1 m.2.2) :
      Spells (ofMembers (members.map fun m => (m.1, m.2.1)))
        (.openBrace :: ([.comma].intercalate (members.map memberSpelling) ++ [.closeBrace]))

variable {value : Json} {tokens : List Token}

/-! ### What is spelled is read -/

/-- No value starts like the end of an array. -/
theorem Spells.exists_cons (h : Spells value tokens) :
    ∃ token after, tokens = token :: after ∧ token ≠ .closeBracket := by
  cases h <;> exact ⟨_, _, rfl, nofun⟩

/-- The reader finds the value in front of any tokens, if it has enough steps. -/
def Found (value : Json) (tokens : List Token) : Prop :=
  ∀ bound rest, tokens.length ≤ bound → readValue bound (tokens ++ rest) = some (value, rest)

theorem readItems_intercalate (item : Json × List Token) (items : List (Json × List Token))
    (h : ∀ item' ∈ item :: items, Found item'.1 item'.2) (bound : Nat)
    (hbound : ([.comma].intercalate ((item :: items).map Prod.snd)).length < bound)
    (rest : List Token) :
    readItems bound ([.comma].intercalate ((item :: items).map Prod.snd) ++ .closeBracket :: rest) =
      some ((item :: items).map Prod.fst, rest) := by
  induction items generalizing item bound with
  | nil =>
    obtain ⟨bound, rfl⟩ : ∃ steps, bound = steps + 1 := ⟨bound - 1, by omega⟩
    have hitem := h item List.mem_cons_self
    simp only [List.map_cons, List.map_nil, List.intercalate_singleton] at hbound ⊢
    simp [readItems, hitem bound _ (by omega)]
  | cons next items ih =>
    -- the comma behind the item pays for the step
    obtain ⟨bound, rfl⟩ : ∃ steps, bound = steps + 1 := ⟨bound - 1, by omega⟩
    obtain ⟨hitem, hitems⟩ := List.forall_mem_cons.mp h
    simp only [List.map_cons, List.intercalate_cons_cons, List.length_append, List.length_singleton]
      at hbound
    have hnext := ih next hitems bound (by simp only [List.map_cons]; omega)
    simp only [List.map_cons] at hnext
    simp only [List.map_cons, List.intercalate_cons_cons, List.append_assoc, List.singleton_append,
      readItems]
    simp [hitem bound _ (by omega), hnext]

theorem readKey_keyToken (key : Option String) (rest : List Token) :
    readKey (keyToken key :: .colon :: rest) = some (key, rest) := by
  cases key <;> rfl

theorem readMembers_intercalate (m : Option String × Json × List Token)
    (members : List (Option String × Json × List Token))
    (h : ∀ m' ∈ m :: members, Found m'.2.1 m'.2.2) (bound : Nat)
    (hbound : ([.comma].intercalate ((m :: members).map memberSpelling)).length < bound)
    (rest : List Token) :
    readMembers bound
      ([.comma].intercalate ((m :: members).map memberSpelling) ++ .closeBrace :: rest) =
      some ((m :: members).map fun m => (m.1, m.2.1), rest) := by
  induction members generalizing m bound with
  | nil =>
    obtain ⟨bound, rfl⟩ : ∃ steps, bound = steps + 1 := ⟨bound - 1, by omega⟩
    have hvalue := h m List.mem_cons_self
    simp only [List.map_cons, List.map_nil, List.intercalate_singleton, memberSpelling,
      List.length_cons] at hbound ⊢
    simp [readMembers, readKey_keyToken, hvalue bound _ (by omega)]
  | cons next members ih =>
    obtain ⟨bound, rfl⟩ : ∃ steps, bound = steps + 1 := ⟨bound - 1, by omega⟩
    obtain ⟨hvalue, hmembers⟩ := List.forall_mem_cons.mp h
    simp only [List.map_cons, List.intercalate_cons_cons, List.length_append,
      memberSpelling, List.length_cons] at hbound
    have hnext := ih next hmembers bound
      (by simp only [List.map_cons, memberSpelling]; omega)
    simp only [List.map_cons] at hnext
    simp only [List.map_cons, List.intercalate_cons_cons, List.append_assoc, List.singleton_append,
      readMembers]
    rw [memberSpelling, List.cons_append, List.cons_append, readKey_keyToken]
    simp [hvalue bound _ (by omega), hnext]

theorem exists_intercalate (head : List Token) (lists : List (List Token)) :
    ∃ later, [.comma].intercalate (head :: lists) = head ++ later := by
  cases lists with
  | nil => exact ⟨[], by simp⟩
  | cons next lists => exact ⟨_, by rw [List.intercalate_cons_cons, List.append_assoc]⟩

/-- An array with at least one item is read item by item. -/
theorem readValue_openBracket {bound : Nat} {token : Token} {after : List Token}
    (h : token ≠ .closeBracket) :
    readValue (bound + 1) (.openBracket :: token :: after) =
      (readItems bound (token :: after)).map fun (items, rest) => (.array items, rest) := by
  rw [readValue]
  rintro rest heq
  exact h (List.cons.inj heq).1

/-- An object with at least one member is read member by member. -/
theorem readValue_openBrace {bound : Nat} (key : Option String) {after : List Token} :
    readValue (bound + 1) (.openBrace :: keyToken key :: after) =
      (readMembers bound (keyToken key :: after)).map fun (members, rest) =>
        (ofMembers members, rest) := by
  cases key <;> rfl

/-- Spelled tokens are read as the value that they spell. -/
theorem Spells.found (h : Spells value tokens) : Found value tokens := by
  induction h with
  | array items h ih =>
    intro bound rest hbound
    rw [List.length_cons, List.length_append, List.length_singleton] at hbound
    obtain ⟨bound, rfl⟩ : ∃ steps, bound = steps + 1 := ⟨bound - 1, by omega⟩
    rw [List.cons_append, List.append_assoc, List.singleton_append]
    cases items with
    | nil => rfl
    | cons item items =>
      have hread := readItems_intercalate item items ih bound (by omega) rest
      -- the reader looks first whether the array is empty
      obtain ⟨token, after, htokens, hclose⟩ := (h item List.mem_cons_self).exists_cons
      obtain ⟨later, hlater⟩ := exists_intercalate item.2 (items.map Prod.snd)
      rw [List.map_cons, hlater, htokens, List.cons_append, List.cons_append] at hread ⊢
      rw [readValue_openBracket hclose, hread, Option.map_some]
  | object members h ih =>
    intro bound rest hbound
    rw [List.length_cons, List.length_append, List.length_singleton] at hbound
    obtain ⟨bound, rfl⟩ : ∃ steps, bound = steps + 1 := ⟨bound - 1, by omega⟩
    rw [List.cons_append, List.append_assoc, List.singleton_append]
    cases members with
    | nil => rfl
    | cons m members =>
      have hread := readMembers_intercalate m members ih bound (by omega) rest
      obtain ⟨later, hlater⟩ := exists_intercalate (memberSpelling m) (members.map memberSpelling)
      rw [List.map_cons, hlater, memberSpelling, List.cons_append, List.cons_append] at hread ⊢
      rw [readValue_openBrace, hread, Option.map_some]
  | _ =>
    intro bound rest hbound
    obtain ⟨bound, rfl⟩ : ∃ steps, bound = steps + 1 := ⟨bound - 1, by simp at hbound; omega⟩
    rfl

/-! ### What is read is spelled -/

theorem exists_of_readKey {tokens rest : List Token} {key : Option String}
    (h : readKey tokens = some (key, rest)) :
    tokens = keyToken key :: .colon :: rest := by
  unfold readKey at h
  split at h <;> cases h <;> rfl

-- The readers count their steps down, so the recursion is on the bound.
mutual

/-- A value is read from tokens that spell it. -/
theorem exists_spells_of_readValue {bound : Nat} {tokens rest : List Token} {value : Json}
    (h : readValue bound tokens = some (value, rest)) :
    ∃ own, tokens = own ++ rest ∧ Spells value own := by
  match bound with
  | 0 => cases h
  | bound + 1 =>
    unfold readValue at h
    split at h
    · cases h; exact ⟨[.null], rfl, .null⟩
    · cases h; exact ⟨[.bool _], rfl, .bool _⟩
    · cases h; exact ⟨[.integer _], rfl, .integer _⟩
    · cases h; exact ⟨[.decimal _], rfl, .decimal _⟩
    · cases h; exact ⟨[.string _], rfl, .string _⟩
    · cases h; exact ⟨[.unpaired], rfl, .unpaired⟩
    · cases h; exact ⟨[.outOfRange], rfl, .outOfRange⟩
    · cases h; exact ⟨[.openBracket, .closeBracket], rfl, .array [] nofun⟩
    · obtain ⟨⟨_, _⟩, hitems, heq⟩ := Option.map_eq_some_iff.mp h
      cases heq
      obtain ⟨item, items, rfl, rfl, hspells⟩ := exists_spells_of_readItems hitems
      exact ⟨_, by simp, .array (item :: items) hspells⟩
    · cases h; exact ⟨[.openBrace, .closeBrace], rfl, .object [] nofun⟩
    · obtain ⟨⟨_, _⟩, hmembers, heq⟩ := Option.map_eq_some_iff.mp h
      cases heq
      obtain ⟨m, members, rfl, rfl, hspells⟩ := exists_spells_of_readMembers hmembers
      exact ⟨_, by simp, .object (m :: members) hspells⟩
    · cases h
termination_by bound

theorem exists_spells_of_readItems {bound : Nat} {tokens rest : List Token} {values : List Json}
    (h : readItems bound tokens = some (values, rest)) :
    ∃ (item : Json × List Token) (items : List (Json × List Token)),
      (item :: items).map Prod.fst = values ∧
      tokens = [.comma].intercalate ((item :: items).map Prod.snd) ++ .closeBracket :: rest ∧
      ∀ item' ∈ item :: items, Spells item'.1 item'.2 := by
  match bound with
  | 0 => cases h
  | bound + 1 =>
    simp only [readItems, Option.bind_eq_bind, Option.bind_eq_some_iff] at h
    obtain ⟨⟨item, tail⟩, hitem, h⟩ := h
    obtain ⟨own, rfl, hown⟩ := exists_spells_of_readValue hitem
    dsimp only at h
    split at h
    · cases h
      exact ⟨(item, own), [], rfl, by simp, by simpa using hown⟩
    · obtain ⟨⟨_, _⟩, hitems, heq⟩ := Option.bind_eq_some_iff.mp h
      cases heq
      obtain ⟨next, items, rfl, rfl, hspells⟩ := exists_spells_of_readItems hitems
      refine ⟨(item, own), next :: items, rfl, ?_, List.forall_mem_cons.mpr ⟨hown, hspells⟩⟩
      simp [List.intercalate_cons_cons]
    · cases h
termination_by bound

theorem exists_spells_of_readMembers {bound : Nat} {tokens rest : List Token}
    {values : List (Option String × Json)} (h : readMembers bound tokens = some (values, rest)) :
    ∃ (m : Option String × Json × List Token) (members : List (Option String × Json × List Token)),
      (m :: members).map (fun m => (m.1, m.2.1)) = values ∧
      tokens = [.comma].intercalate ((m :: members).map memberSpelling) ++ .closeBrace :: rest ∧
      ∀ m' ∈ m :: members, Spells m'.2.1 m'.2.2 := by
  match bound with
  | 0 => cases h
  | bound + 1 =>
    simp only [readMembers, Option.bind_eq_bind, Option.bind_eq_some_iff] at h
    obtain ⟨⟨key, behind⟩, hkey, ⟨value, tail⟩, hvalue, h⟩ := h
    obtain rfl := exists_of_readKey hkey
    obtain ⟨own, rfl, hown⟩ := exists_spells_of_readValue hvalue
    dsimp only at h
    split at h
    · cases h
      exact ⟨(key, value, own), [], rfl, by simp [memberSpelling], by simpa using hown⟩
    · obtain ⟨⟨_, _⟩, hmembers, heq⟩ := Option.bind_eq_some_iff.mp h
      cases heq
      obtain ⟨next, members, rfl, rfl, hspells⟩ := exists_spells_of_readMembers hmembers
      refine ⟨(key, value, own), next :: members, rfl, ?_, List.forall_mem_cons.mpr ⟨hown, hspells⟩⟩
      simp [List.intercalate_cons_cons, memberSpelling]
    · cases h
termination_by bound

end

/-! ### Texts -/

/-- The tokens of a value are those from which it is read. -/
theorem ofTokens?_eq_some_iff : ofTokens? tokens = some value ↔ Spells value tokens := by
  constructor
  · intro h
    unfold ofTokens? at h
    split at h
    · next hread =>
      cases h
      obtain ⟨own, rfl, hown⟩ := exists_spells_of_readValue hread
      rwa [List.append_nil]
    · cases h
  · intro h
    have hread := h.found (tokens.length + 1) [] (Nat.le_succ _)
    rw [List.append_nil] at hread
    rw [ofTokens?, hread]

/-- The text is a spelling of the value. -/
def Spelled (value : Json) (text : String) : Prop :=
  ∃ tokens, Spells value tokens ∧ Spaced tokens text.toList

/-- The texts of a value are those from which it is read. -/
theorem parse?_eq_some_iff {text : String} : parse? text = some value ↔ Spelled value text := by
  simp only [parse?, Option.bind_eq_some_iff, scan_eq_some_iff, ofTokens?_eq_some_iff, Spelled,
    and_comm]

end Lcpl.Json
