import Mathlib.Data.List.Forall2
import Lcpl.Format.Text
import Lcpl.Proofs.Json.Grammar
import Lcpl.Proofs.Json.Record

/-!
# How long a text is

A text has at least one character for each of its tokens, and what is read from a value has been
spelled by tokens of its own. So the number of nodes of a program is bounded by the length of the
text that it was loaded from. The arena itself has no bound, while the handles that are written have
one.

## Main definitions

* `Json.Costs` — how many tokens it takes to spell what is read

## Main results

* `Json.Spaced.length_le` — a text has at least as many characters as tokens
* `Json.Costs.listOf?`, `Json.Costs.withDefault` — the tokens of lists and of fields
* `Program.size_le_of_load?` — the nodes of a loaded program, and the characters of its text
-/

namespace Lcpl

namespace Json

variable {α β : Type}

/-- A token takes at least one character. -/
theorem Spaced.length_le {tokens : List Token} {cs : List Char} (h : Spaced tokens cs) :
    tokens.length ≤ cs.length := by
  induction h with
  | nil => exact le_rfl
  | blank _ _ ih => exact ih.trans (Nat.le_succ _)
  | @token _ own _ _ hown _ _ ih =>
    obtain ⟨c, hc, -⟩ := hown.owns.start
    have hpos : 0 < own.length := List.length_pos_of_mem (List.mem_of_mem_head? hc)
    rw [List.length_cons, List.length_append]
    omega

/-! ### Values -/

theorem length_flatten_le_intercalate (lists : List (List Token)) :
    lists.flatten.length ≤ ([.comma].intercalate lists).length := by
  match lists with
  | [] => exact Nat.zero_le _
  | [list] => simp
  | list :: next :: lists =>
    have hlater := length_flatten_le_intercalate (next :: lists)
    rw [List.intercalate_cons_cons, List.flatten_cons]
    simp only [List.length_append] at hlater ⊢
    omega

/-- The items of an array have their own tokens. -/
theorem Spells.of_array {items : List Json} {tokens : List Token}
    (h : Spells (.array items) tokens) :
    ∃ parts, List.Forall₂ Spells items parts ∧ parts.flatten.length + 2 ≤ tokens.length := by
  -- what braces spell is no constructor, so the value is compared case by case
  generalize hvalue : Json.array items = value at h
  cases h with
  | array pairs hpairs =>
    obtain rfl := Json.array.inj hvalue
    refine ⟨pairs.map Prod.snd, ?_, ?_⟩
    · rw [List.forall₂_map_left_iff, List.forall₂_map_right_iff, List.forall₂_same]
      exact hpairs
    · have hle := length_flatten_le_intercalate (pairs.map Prod.snd)
      rw [List.length_cons, List.length_append, List.length_singleton]
      omega
  | object members =>
    unfold ofMembers at hvalue
    split at hvalue <;> cases hvalue
  | _ => cases hvalue

theorem exists_of_mem_mapM {β γ : Type} {f : β → Option γ} {xs : List β} {ys : List γ} {y : γ}
    (h : xs.mapM f = some ys) (hy : y ∈ ys) : ∃ x ∈ xs, f x = some y := by
  induction xs generalizing ys with
  | nil =>
    cases h
    cases hy
  | cons x xs ih =>
    rw [List.mapM_cons, Option.bind_eq_bind, Option.bind_eq_some_iff] at h
    obtain ⟨y', hy', htail⟩ := h
    obtain ⟨rest, hrest, hcons⟩ := Option.bind_eq_some_iff.mp htail
    cases hcons
    rcases List.mem_cons.mp hy with rfl | hy
    · exact ⟨x, List.mem_cons_self, hy'⟩
    · obtain ⟨x', hx', hfx⟩ := ih hrest hy
      exact ⟨x', List.mem_cons_of_mem _ hx', hfx⟩

/-- An item is spelled inside of the brackets. -/
theorem Spells.of_mem_array {items : List Json} {tokens : List Token} {value : Json}
    (h : Spells (.array items) tokens) (hmem : value ∈ items) :
    ∃ own, Spells value own ∧ own.length + 2 ≤ tokens.length := by
  obtain ⟨parts, hparts, hle⟩ := h.of_array
  have hinside : ∃ own, Spells value own ∧ own.length ≤ parts.flatten.length := by
    clear hle h
    induction hparts with
    | nil => cases hmem
    | @cons item part items parts hitem _ ih =>
      rw [List.flatten_cons, List.length_append]
      rcases List.mem_cons.mp hmem with rfl | hmem
      · exact ⟨part, hitem, Nat.le_add_right ..⟩
      · obtain ⟨own, hown, hlength⟩ := ih hmem
        exact ⟨own, hown, hlength.trans (Nat.le_add_left ..)⟩
  obtain ⟨own, hown, hlength⟩ := hinside
  exact ⟨own, hown, by omega⟩

/-- The value of a member is spelled inside of the braces. -/
theorem Spells.of_mem_object {members : Members} {tokens : List Token} {key : String} {value : Json}
    (h : Spells (.object members) tokens) (hmem : (key, value) ∈ members) :
    ∃ own, Spells value own ∧ own.length + 2 ≤ tokens.length := by
  generalize hobject : Json.object members = whole at h
  cases h with
  | object spelled hspelled =>
    unfold ofMembers at hobject
    split at hobject
    · next hkeys =>
      cases hobject
      obtain ⟨pair, hpair, hkey⟩ := exists_of_mem_mapM hkeys hmem
      obtain ⟨m, hm, rfl⟩ := List.mem_map.mp hpair
      obtain ⟨_, -, hvalue⟩ := Option.map_eq_some_iff.mp hkey
      obtain ⟨-, rfl⟩ := Prod.mk.inj hvalue
      refine ⟨m.2.2, hspelled m hm, ?_⟩
      -- the key and its colon are not counted, since an array has none
      have hle := length_flatten_le_intercalate (spelled.map memberSpelling)
      have hown :=
        (List.sublist_flatten_of_mem (List.mem_map_of_mem (f := memberSpelling) hm)).length_le
      rw [memberSpelling, List.length_cons, List.length_cons] at hown
      rw [List.length_cons, List.length_append, List.length_singleton]
      omega
    · cases hobject
  | _ => cases hobject

/-! ### Readers -/

/-- What is read has been spelled by at least so many tokens. -/
def Costs (cost : α → Nat) (read : Json → Option α) : Prop :=
  ∀ value x tokens, read value = some x → Spells value tokens → cost x ≤ tokens.length

/-- The members of a record are spelled inside of its braces or brackets. -/
theorem Spells.of_mem_members {record : Record α} {value : Json} {members : Members}
    {tokens : List Token} {m : String × Json} (h : Spells value tokens)
    (hmembers : record.members? value = some members) (hmem : m ∈ members) :
    ∃ own, Spells m.2 own ∧ own.length + 2 ≤ tokens.length := by
  match value with
  | .object _ =>
    obtain rfl := Option.some_inj.mp hmembers
    exact h.of_mem_object hmem
  | .array items =>
    obtain ⟨-, rfl⟩ := Record.ofItems?_eq_some_iff.mp hmembers
    exact h.of_mem_array (List.of_mem_zip hmem).2

theorem mem_of_values {key : String} {members : Members} {value : Json}
    (h : values key members = [value]) : (key, value) ∈ members := by
  have hmem : value ∈ values key members := h ▸ List.mem_singleton_self value
  obtain ⟨⟨name, value'⟩, hm, hname⟩ := List.mem_filterMap.mp hmem
  obtain ⟨rfl, hvalue⟩ := by simpa using hname
  exact hvalue ▸ hm

/-- A record takes its braces or brackets, and something for a field. -/
theorem three_le_of_required {record : Record β} {value : Json} {read : Json → Option α}
    {key : String} {members : Members} {x : α} {tokens : List Token}
    (hmembers : record.members? value = some members)
    (hx : required read key members = some x) (h : Spells value tokens) : 3 ≤ tokens.length := by
  unfold required at hx
  split at hx
  · next hvalues =>
    obtain ⟨own, hown, hle⟩ := h.of_mem_members hmembers (mem_of_values hvalues)
    obtain ⟨token, after, rfl, -⟩ := hown.exists_cons
    rw [List.length_cons] at hle
    omega
  · cases hx

namespace Costs

variable {read : Json → Option α} {cost : α → Nat}

/-- The items of a list are spelled apart from each other. -/
theorem listOf? {n : Nat} (h : Costs (fun _ => n) read) :
    Costs (fun xs => n * xs.length) (listOf? read) := by
  intro value xs tokens hxs htokens
  unfold Json.listOf? at hxs
  split at hxs
  · next items =>
    obtain ⟨parts, hparts, hle⟩ := htokens.of_array
    refine le_trans ?_ (Nat.le_of_add_right_le hle)
    -- brackets and commas are left out of the count, so the induction is on the items alone
    clear hle htokens
    induction hparts generalizing xs with
    | nil =>
      cases hxs
      exact le_rfl
    | @cons item part items parts hitem _ ih =>
      rw [List.mapM_cons, Option.bind_eq_bind, Option.bind_eq_some_iff] at hxs
      obtain ⟨x, hx, htail⟩ := hxs
      obtain ⟨rest, hrest, hcons⟩ := Option.bind_eq_some_iff.mp htail
      cases hcons
      calc n * (rest.length + 1)
        _ = n * rest.length + n := Nat.mul_succ n rest.length
        _ ≤ parts.flatten.length + part.length :=
          Nat.add_le_add (ih rest hrest) (h item x part hx hitem)
        _ = (part :: parts).flatten.length := by
          rw [List.flatten_cons, List.length_append, Nat.add_comm]
  · cases hxs

/-- A field is spelled inside of the record. What stands for a missing one costs nothing. -/
theorem withDefault {record : Record β} {value : Json} {default x : α} {key : String}
    {members : Members} {tokens : List Token} (h : Costs cost read) (hdefault : cost default = 0)
    (hmembers : record.members? value = some members)
    (hx : withDefault default read key members = some x) (htokens : Spells value tokens) :
    cost x ≤ tokens.length := by
  unfold Json.withDefault at hx
  split at hx
  · obtain rfl := Option.some_inj.mp hx
    omega
  · next value hvalues =>
    obtain ⟨own, hown, hle⟩ := htokens.of_mem_members hmembers (mem_of_values hvalues)
    exact (h value x own hx hown).trans (Nat.le_of_add_right_le hle)
  · cases hx

end Costs

end Json

open Json (Costs Record Spells)

theorem costs_node : Costs (fun _ => 3) Node.ofJson? := by
  intro value node tokens h htokens
  obtain ⟨members, hmembers, hread⟩ := Record.exists_read_of_ofJson? h
  rw [Record.read_eq_some_iff] at hread
  simp only [Node.record, Record.exists_read_seq, Record.exists_read_map,
    Record.read_required] at hread
  obtain ⟨line, hline, -⟩ := hread
  exact Json.three_le_of_required hmembers hline htokens

theorem costs_arena : Costs (fun a => 3 * a.size) Arena.ofJson? := by
  intro value a tokens h htokens
  obtain ⟨nodes, hnodes, rfl⟩ := Option.map_eq_some_iff.mp h
  simpa [Arena.size] using costs_node.listOf? value nodes tokens hnodes htokens

/-- A text has three characters for each node that is loaded from it, at least. -/
theorem Program.size_le_of_load? {text : String} {p : Program} (h : load? text = some p) :
    3 * p.exprs.size ≤ text.length := by
  obtain ⟨value, hparse, hread⟩ := Option.bind_eq_some_iff.mp h
  obtain ⟨tokens, hspells, hspaced⟩ := Json.parse?_eq_some_iff.mp hparse
  obtain ⟨members, hmembers, hread⟩ := Record.exists_read_of_ofJson? hread
  rw [Record.read_eq_some_iff] at hread
  simp only [record, Record.exists_read_seq, Record.exists_read_map, Record.read_required,
    Record.read_withDefault] at hread
  obtain ⟨line, -, classes, -, exprs, hexprs, builtins, -, rfl⟩ := hread
  calc 3 * exprs.size
    _ ≤ tokens.length := costs_arena.withDefault rfl hmembers hexprs hspells
    _ ≤ text.toList.length := hspaced.length_le
    _ = text.length := String.length_toList

end Lcpl
