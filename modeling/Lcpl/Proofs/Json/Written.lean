import Lcpl.Proofs.Json.Grammar

/-!
# Reading what was written

A value is written as the tokens it consists of, with white space in between. Scanning finds the
tokens, whatever the layout, and reading them gives the value again.

## Main definitions

* `Json.tokens` — the tokens that a value consists of
* `Json.Layout.IsBlank` — a layout that adds nothing but white space

## Main results

* `Json.scan_write` — the text of a value has the tokens of the value
* `Json.spells_tokens` — the tokens of a value spell it
* `Json.parse?_write` — what was written is read back
-/

namespace Lcpl.Json

mutual

/-- The tokens that a value consists of. -/
def tokens : Json → List Token
  | .null => [.null]
  | .bool value => [.bool value]
  | .integer value => [.integer value]
  | .decimal spelling => [.decimal spelling]
  | .string value => [.string value]
  | .invalid => [.unpaired]
  | .array [] => [.openBracket, .closeBracket]
  | .array (item :: items) => .openBracket :: (tokens item ++ itemTokens items)
  | .object [] => [.openBrace, .closeBrace]
  | .object ((key, value) :: members) =>
      .openBrace :: .string key :: .colon :: (tokens value ++ memberTokens members)

/-- The tokens of an array behind its first item. -/
def itemTokens : List Json → List Token
  | [] => [.closeBracket]
  | item :: items => .comma :: (tokens item ++ itemTokens items)

/-- The tokens of an object behind its first member. -/
def memberTokens : List (String × Json) → List Token
  | [] => [.closeBrace]
  | (key, value) :: members =>
      .comma :: .string key :: .colon :: (tokens value ++ memberTokens members)

end

/-! ### Scanning a written value -/

/-- Nothing but white space is added to the tokens. -/
structure Layout.IsBlank (layout : Layout) : Prop where
  line : ∀ depth, ∀ c ∈ layout.line depth, isBlank c = true
  gap : ∀ c ∈ layout.gap, isBlank c = true

theorem isBlank_compact : Layout.compact.IsBlank := ⟨fun _ => nofun, nofun⟩

theorem isBlank_pretty : Layout.pretty.IsBlank := by
  constructor
  · intro depth c hc
    rcases List.mem_cons.mp hc with rfl | hc
    · rfl
    · rw [List.eq_of_mem_replicate hc]
      rfl
  · intro c hc
    rw [List.mem_singleton.mp hc]
    rfl

/-- Scanning goes on behind a spelled token. -/
theorem scan_spell (token : Token) (htoken : token.IsExact) {rest : List Char} {tokens : List Token}
    (hrest : token.isNumber = true → Delimits rest) (h : scan rest = some tokens) :
    scan (token.spell ++ rest) = some (token :: tokens) := by
  apply scan_of_scanToken _ hrest h
  have hspell : scanToken (token.spell ++ []) = some (token, []) :=
    scanToken_spell htoken fun _ _ => delimits_nil
  rwa [List.append_nil] at hspell

theorem delimits_blanks {blanks rest : List Char} (hblanks : ∀ c ∈ blanks, isBlank c = true)
    (h : Delimits rest) : Delimits (blanks ++ rest) := by
  rcases blanks with _ | ⟨c, blanks⟩
  · exact h
  · exact delimits_cons (continuesNumber_of_isBlank (hblanks c List.mem_cons_self))

section

variable {layout : Layout} (hlayout : layout.IsBlank)
include hlayout

theorem delimits_writeItems (depth : Nat) (items : List Json) (rest : List Char) :
    Delimits (writeItems layout depth items ++ rest) := by
  cases items with
  | nil =>
    rw [writeItems, List.append_assoc]
    exact delimits_blanks (hlayout.line depth) (delimits_cons rfl)
  | cons => exact delimits_cons rfl

theorem delimits_writeMembers (depth : Nat) (members : List (String × Json)) (rest : List Char) :
    Delimits (writeMembers layout depth members ++ rest) := by
  cases members with
  | nil =>
    rw [writeMembers, List.append_assoc]
    exact delimits_blanks (hlayout.line depth) (delimits_cons rfl)
  | cons => exact delimits_cons rfl

/-- The key of a member, with the line and the gap around it. -/
theorem scan_key (depth : Nat) (key : String) {rest : List Char} {after : List Token}
    (h : scan rest = some after) :
    scan (layout.line depth ++ (quote key ++ ':' :: layout.gap) ++ rest) =
      some (.string key :: .colon :: after) := by
  have hcolon : scan (Token.colon.spell ++ (layout.gap ++ rest)) = some (.colon :: after) :=
    scan_spell .colon trivial nofun (scan_blanks hlayout.gap h)
  have hkey := scan_spell (.string key) trivial nofun hcolon
  simpa [Token.spell, List.append_assoc] using scan_blanks (hlayout.line depth) hkey

-- A number is the only token that has to be delimited: behind an item or a value of a member there
-- is
-- a comma or a line, and behind the whole value there is whatever the caller has.
mutual

/-- A written value has its own tokens, and scanning goes on behind it. -/
theorem scan_write (depth : Nat) (value : Json) (hvalue : ∀ token ∈ value.tokens, token.IsExact)
    {rest : List Char} {after : List Token} (hrest : Delimits rest) (h : scan rest = some after) :
    scan (write layout depth value ++ rest) = some (value.tokens ++ after) := by
  have hleaf (token : Token) (htoken : token.IsExact) :
      scan (token.spell ++ rest) = some (token :: after) :=
    scan_spell token htoken (fun _ => hrest) h
  match value with
  | .null => exact hleaf .null trivial
  | .bool value => exact hleaf (.bool value) trivial
  | .integer value => exact hleaf (.integer value) (hvalue _ List.mem_cons_self)
  | .decimal spelling => cases hvalue _ List.mem_cons_self
  | .string value => exact hleaf (.string value) trivial
  | .invalid => exact hleaf .unpaired trivial
  | .array [] =>
    exact scan_spell .openBracket trivial nofun (hleaf .closeBracket trivial)
  | .array (item :: items) =>
    rw [tokens, List.forall_mem_cons, List.forall_mem_append] at hvalue
    obtain ⟨-, hitem, hitems⟩ := hvalue
    have htail := scan_write (depth + 1) item hitem (delimits_writeItems hlayout depth items rest)
      (scan_writeItems depth items hitems h)
    have hline := scan_blanks (hlayout.line (depth + 1)) htail
    simpa [write, tokens, Token.spell] using scan_spell .openBracket trivial nofun hline
  | .object [] =>
    exact scan_spell .openBrace trivial nofun (hleaf .closeBrace trivial)
  | .object ((key, value) :: members) =>
    rw [tokens, List.forall_mem_cons, List.forall_mem_cons, List.forall_mem_cons,
      List.forall_mem_append] at hvalue
    obtain ⟨-, -, -, hvalue, hmembers⟩ := hvalue
    have htail := scan_write (depth + 1) value hvalue
      (delimits_writeMembers hlayout depth members rest)
      (scan_writeMembers depth members hmembers h)
    have hkey := scan_key hlayout (depth + 1) key htail
    simpa [write, tokens, Token.spell] using scan_spell .openBrace trivial nofun hkey

theorem scan_writeItems (depth : Nat) (items : List Json)
    (hitems : ∀ token ∈ itemTokens items, token.IsExact) {rest : List Char} {after : List Token}
    (h : scan rest = some after) :
    scan (writeItems layout depth items ++ rest) = some (itemTokens items ++ after) := by
  match items with
  | [] =>
    have hclose := scan_spell .closeBracket trivial nofun h
    simpa [writeItems, itemTokens, Token.spell] using scan_blanks (hlayout.line depth) hclose
  | item :: items =>
    rw [itemTokens, List.forall_mem_cons, List.forall_mem_append] at hitems
    obtain ⟨-, hitem, hitems⟩ := hitems
    have htail := scan_write (depth + 1) item hitem (delimits_writeItems hlayout depth items rest)
      (scan_writeItems depth items hitems h)
    have hline := scan_blanks (hlayout.line (depth + 1)) htail
    simpa [writeItems, itemTokens, Token.spell] using scan_spell .comma trivial nofun hline

theorem scan_writeMembers (depth : Nat) (members : List (String × Json))
    (hmembers : ∀ token ∈ memberTokens members, token.IsExact) {rest : List Char}
    {after : List Token} (h : scan rest = some after) :
    scan (writeMembers layout depth members ++ rest) = some (memberTokens members ++ after) := by
  match members with
  | [] =>
    have hclose := scan_spell .closeBrace trivial nofun h
    simpa [writeMembers, memberTokens, Token.spell] using scan_blanks (hlayout.line depth) hclose
  | (key, value) :: members =>
    rw [memberTokens, List.forall_mem_cons, List.forall_mem_cons, List.forall_mem_cons,
      List.forall_mem_append] at hmembers
    obtain ⟨-, -, -, hvalue, hmembers⟩ := hmembers
    have htail := scan_write (depth + 1) value hvalue
      (delimits_writeMembers hlayout depth members rest)
      (scan_writeMembers depth members hmembers h)
    have hkey := scan_key hlayout (depth + 1) key htail
    simpa [writeMembers, memberTokens, Token.spell] using scan_spell .comma trivial nofun hkey

end

end

/-! ### Reading the tokens of a value -/

theorem ofMembers_map_some (members : List (String × Json)) :
    ofMembers (members.map (Prod.map some id)) = .object members := by
  have hkeys (g : Option String × Json → Option (String × Json))
      (hg : ∀ key value, g (some key, value) = some (key, value)) :
      (members.map (Prod.map some id)).mapM g = some members := by
    induction members with
    | nil => rfl
    | cons member members ih =>
      have hmember : g (Prod.map some id member) = some member := hg member.1 member.2
      simp [ih, hmember]
  rw [ofMembers, hkeys _ fun _ _ => rfl]

theorem append_itemTokens (item : Json) (items : List Json) :
    item.tokens ++ itemTokens items =
      [.comma].intercalate ((item :: items).map tokens) ++ [.closeBracket] := by
  induction items generalizing item with
  | nil => simp [itemTokens]
  | cons next items ih => simp [itemTokens, ih, List.intercalate_cons_cons]

/-- A member with its tokens. -/
def spelledMember (m : String × Json) : Option String × Json × List Token :=
  (some m.1, m.2, m.2.tokens)

theorem append_memberTokens (m : String × Json) (members : List (String × Json)) :
    .string m.1 :: .colon :: (m.2.tokens ++ memberTokens members) =
      [.comma].intercalate (((m :: members).map spelledMember).map memberSpelling) ++
        [.closeBrace] := by
  induction members generalizing m with
  | nil => simp [memberTokens, spelledMember, memberSpelling, keyToken]
  | cons next members ih =>
    rw [memberTokens, ih next]
    simp [List.intercalate_cons_cons, spelledMember, memberSpelling, keyToken]

mutual

/-- The tokens of a value spell it. -/
theorem spells_tokens (value : Json) : Spells value value.tokens := by
  match value with
  | .null => exact .null
  | .bool value => exact .bool value
  | .integer value => exact .integer value
  | .decimal spelling => exact .decimal spelling
  | .string value => exact .string value
  | .invalid => exact .unpaired
  | .array [] => exact .array [] nofun
  | .array (item :: items) =>
    have h := Spells.array ((item :: items).map fun item => (item, item.tokens))
      (List.forall_mem_map.mpr (spells_items (item :: items)))
    rw [tokens, append_itemTokens]
    simpa [Function.comp_def] using h
  | .object [] => exact .object [] nofun
  | .object (m :: members) =>
    have h := Spells.object ((m :: members).map spelledMember)
      (List.forall_mem_map.mpr (spells_members (m :: members)))
    rw [List.map_map] at h
    rw [tokens, append_memberTokens, ← ofMembers_map_some (m :: members)]
    exact h

theorem spells_items (items : List Json) : ∀ item ∈ items, Spells item item.tokens := by
  match items with
  | [] => exact nofun
  | item :: items => exact List.forall_mem_cons.mpr ⟨spells_tokens item, spells_items items⟩

theorem spells_members (members : List (String × Json)) : ∀ m ∈ members, Spells m.2 m.2.tokens := by
  match members with
  | [] => exact nofun
  | m :: members => exact List.forall_mem_cons.mpr ⟨spells_tokens m.2, spells_members members⟩

end

/-- In any layout, the text of a value spells it. -/
theorem spelled_write {layout : Layout} (hlayout : layout.IsBlank) {value : Json}
    (hvalue : ∀ token ∈ value.tokens, token.IsExact) :
    Spelled value (String.ofList (write layout 0 value)) := by
  have hscan := scan_write hlayout 0 value hvalue delimits_nil (show scan [] = some [] from rfl)
  rw [List.append_nil, List.append_nil] at hscan
  refine ⟨value.tokens, spells_tokens value, ?_⟩
  rwa [String.toList_ofList, ← scan_eq_some_iff]

/-- In any layout, what was written is read back. -/
theorem parse?_write {layout : Layout} (hlayout : layout.IsBlank) {value : Json}
    (hvalue : ∀ token ∈ value.tokens, token.IsExact) :
    parse? (String.ofList (write layout 0 value)) = some value :=
  parse?_eq_some_iff.mpr (spelled_write hlayout hvalue)

end Lcpl.Json
