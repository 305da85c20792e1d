import Lcpl.Json.Token

/-!
# JSON values

A value keeps the members of an object as they are written: in order, and with repetitions. What a
repeated member means is for the reader of the object to decide.

A well-formed text may have parts that stand for nothing. They are kept as `Json.invalid`, so that a
reader can skip over what it does not need.

## Main definitions

* `Json` — a value
* `Json.ofTokens?`, `Json.parse?` — the value that a list of tokens, or a text, stands for
* `Json.isPlain` — whether a value has no invalid part and few enough levels
* `Json.write` — the text of a value, in a given layout
-/

namespace Lcpl

/-- A JSON value. -/
inductive Json where
  | null
  | bool (value : Bool)
  | integer (value : Int)
  /-- A number with fraction or exponent, or `-0`, by its spelling. -/
  | decimal (spelling : List Char)
  | string (value : String)
  | array (items : List Json)
  | object (members : List (String × Json))
  /-- A string with an unpaired surrogate, an object with such a key, or a number that is too
  large. -/
  | invalid
deriving Repr

namespace Json

/-- The object with given members. A key that stands for no text makes it invalid. -/
def ofMembers (members : List (Option String × Json)) : Json :=
  match members.mapM fun (key, value) => key.map (·, value) with
  | some members => .object members
  | none => .invalid

/-! ### Reading -/

/-- Reads a key and the colon behind it. -/
def readKey : List Token → Option (Option String × List Token)
  | .string key :: .colon :: rest => some (some key, rest)
  | .unpaired :: .colon :: rest => some (none, rest)
  | _ => none

mutual

/-- Reads one value, nested no deeper than the bound, and the tokens behind it. -/
def readValue : Nat → List Token → Option (Json × List Token)
  | 0, _ => none
  | bound + 1, tokens =>
      match tokens with
      | .null :: rest => some (.null, rest)
      | .bool value :: rest => some (.bool value, rest)
      | .integer value :: rest => some (.integer value, rest)
      | .decimal spelling :: rest => some (.decimal spelling, rest)
      | .string value :: rest => some (.string value, rest)
      | .unpaired :: rest => some (.invalid, rest)
      | .outOfRange :: rest => some (.invalid, rest)
      | .openBracket :: .closeBracket :: rest => some (.array [], rest)
      | .openBracket :: rest => (readItems bound rest).map fun (items, rest) => (.array items, rest)
      | .openBrace :: .closeBrace :: rest => some (.object [], rest)
      | .openBrace :: rest =>
          (readMembers bound rest).map fun (members, rest) => (ofMembers members, rest)
      | _ => none

/-- Reads the items of an array up to its closing bracket. -/
def readItems : Nat → List Token → Option (List Json × List Token)
  | 0, _ => none
  | bound + 1, tokens => do
      let (item, rest) ← readValue bound tokens
      match rest with
      | .closeBracket :: rest => return ([item], rest)
      | .comma :: rest =>
          let (items, rest) ← readItems bound rest
          return (item :: items, rest)
      | _ => none

/-- Reads the members of an object up to its closing brace. -/
def readMembers : Nat → List Token → Option (List (Option String × Json) × List Token)
  | 0, _ => none
  | bound + 1, tokens => do
      let (key, rest) ← readKey tokens
      let (value, rest) ← readValue bound rest
      match rest with
      | .closeBrace :: rest => return ([(key, value)], rest)
      | .comma :: rest =>
          let (members, rest) ← readMembers bound rest
          return ((key, value) :: members, rest)
      | _ => none

end

/-- The value that tokens stand for. A value has at least as many tokens as it has levels, so their
number bounds the recursion. -/
def ofTokens? (tokens : List Token) : Option Json :=
  match readValue (tokens.length + 1) tokens with
  | some (value, []) => some value
  | _ => none

/-- The value of a text. -/
def parse? (text : String) : Option Json := (scan text.toList).bind ofTokens?

/-! ### Plain values -/

mutual

/-- Whether a value has no invalid part, and at most the given number of levels of arrays and
objects. -/
def isPlain (levels : Nat) : Json → Bool
  | .null | .bool _ | .integer _ | .decimal _ | .string _ => true
  | .invalid => false
  | .array items => 0 < levels && itemsPlain (levels - 1) items
  | .object members => 0 < levels && membersPlain (levels - 1) members

/-- Whether all items of an array are plain. -/
def itemsPlain (levels : Nat) : List Json → Bool
  | [] => true
  | item :: items => isPlain levels item && itemsPlain levels items

/-- Whether the values of all members of an object are plain. -/
def membersPlain (levels : Nat) : List (String × Json) → Bool
  | [] => true
  | (_, value) :: members => isPlain levels value && membersPlain levels members

end

/-! ### Writing -/

/-- Where a written value has white space. -/
structure Layout where
  /-- What stands before an item, a member or a closing bracket at a depth of nesting. -/
  line : Nat → List Char
  /-- What stands between a colon and the value of its member. -/
  gap : List Char

/-- No white space at all. -/
def Layout.compact : Layout := ⟨fun _ => [], []⟩

/-- One item or member a line, indented by two spaces for each level. -/
def Layout.pretty : Layout := ⟨fun depth => '\n' :: List.replicate (2 * depth) ' ', [' ']⟩

mutual

/-- The text of a value at a depth of nesting. Empty arrays and objects take no white space. -/
def write (layout : Layout) (depth : Nat) : Json → List Char
  | .null => Token.null.spell
  | .bool value => (Token.bool value).spell
  | .integer value => (Token.integer value).spell
  | .decimal spelling => (Token.decimal spelling).spell
  | .string value => (Token.string value).spell
  | .invalid => Token.unpaired.spell
  | .array [] => ['[', ']']
  | .array (item :: items) =>
      '[' :: (layout.line (depth + 1) ++ write layout (depth + 1) item ++
        writeItems layout depth items)
  | .object [] => ['{', '}']
  | .object ((key, value) :: members) =>
      '{' :: (layout.line (depth + 1) ++ (quote key ++ ':' :: layout.gap) ++
        write layout (depth + 1) value ++ writeMembers layout depth members)

/-- The items of an array behind the first, and its closing bracket. -/
def writeItems (layout : Layout) (depth : Nat) : List Json → List Char
  | [] => layout.line depth ++ [']']
  | item :: items =>
      ',' :: (layout.line (depth + 1) ++ write layout (depth + 1) item ++
        writeItems layout depth items)

/-- The members of an object behind the first, and its closing brace. -/
def writeMembers (layout : Layout) (depth : Nat) : List (String × Json) → List Char
  | [] => layout.line depth ++ ['}']
  | (key, value) :: members =>
      ',' :: (layout.line (depth + 1) ++ (quote key ++ ':' :: layout.gap) ++
        write layout (depth + 1) value ++ writeMembers layout depth members)

end

/-- The text of a value without white space. -/
def compact (value : Json) : String := String.ofList (write .compact 0 value)

/-- The text of a value with one item or member a line. -/
def pretty (value : Json) : String := String.ofList (write .pretty 0 value)

end Json

end Lcpl
