import Lcpl.Json.Magnitude

/-!
# JSON tokens

The scanner cuts a text into tokens and drops the white space between them. It is strict: no
comments, no byte order mark, and no raw control characters inside strings.

A number is an integer token when it is written without fraction and exponent and is not `-0`;
any other number keeps its spelling. Some tokens are well formed and yet stand for no value: a
string with an unpaired surrogate escape, and a number that is too large.

## Main definitions

* `Json.Token` — a token
* `Json.Token.spell` — its shortest spelling
* `Json.scan` — the tokens of a text
-/

namespace Lcpl.Json

/-- A token of a JSON text. -/
inductive Token where
  | openBrace
  | closeBrace
  | openBracket
  | closeBracket
  | comma
  | colon
  | null
  | bool (value : Bool)
  | integer (value : Int)
  | decimal (spelling : List Char)
  | string (value : String)
  /-- A string in which a surrogate escape lacks its partner. -/
  | unpaired
  /-- A number that is too large. -/
  | outOfRange
deriving DecidableEq, Repr

/-! ### Characters -/

/-- White space between tokens. -/
def isBlank (c : Char) : Bool :=
  c = ' ' || c = '\t' || c = '\n' || c = '\r'

/-- The value of a hexadecimal digit. -/
def hexValue? (c : Char) : Option Nat :=
  if '0' ≤ c ∧ c ≤ '9' then some (c.toNat - '0'.toNat)
  else if 'a' ≤ c ∧ c ≤ 'f' then some (c.toNat - 'a'.toNat + 10)
  else if 'A' ≤ c ∧ c ≤ 'F' then some (c.toNat - 'A'.toNat + 10)
  else none

/-- The code written by four hexadecimal digits. -/
def hexCode? (a b c d : Char) : Option Nat := do
  let a ← hexValue? a
  let b ← hexValue? b
  let c ← hexValue? c
  let d ← hexValue? d
  return ((a * 16 + b) * 16 + c) * 16 + d

/-- The lower case hexadecimal digit of a value below sixteen. -/
def hexDigit (value : Nat) : Char :=
  Char.ofNat (if value < 10 then '0'.toNat + value else 'a'.toNat + (value - 10))

/-! ### Strings -/

/-- One element of a string literal. -/
inductive Piece where
  /-- A character, raw or escaped by a letter. -/
  | char (c : Char)
  /-- A sixteen bit code, escaped by its digits. -/
  | code (value : Nat)
deriving DecidableEq, Repr

/-- The character that a one-letter escape stands for. -/
def unescape? : Char → Option Char
  | '"' => some '"'
  | '\\' => some '\\'
  | '/' => some '/'
  | 'b' => some '\x08'
  | 'f' => some '\x0c'
  | 'n' => some '\n'
  | 'r' => some '\r'
  | 't' => some '\t'
  | _ => none

/-- Reads the elements of a string up to its closing quote, and the text behind it. -/
def scanPieces : List Char → Option (List Piece × List Char)
  | [] => none
  | '"' :: rest => some ([], rest)
  | '\\' :: 'u' :: a :: b :: c :: d :: rest => do
      let code ← hexCode? a b c d
      let (pieces, rest) ← scanPieces rest
      return (.code code :: pieces, rest)
  | '\\' :: letter :: rest => do
      let c ← unescape? letter
      let (pieces, rest) ← scanPieces rest
      return (.char c :: pieces, rest)
  | c :: rest =>
      if c < ' ' then none
      else do
        let (pieces, rest) ← scanPieces rest
        return (.char c :: pieces, rest)

/-- Whether a code opens a surrogate pair. -/
def isHighSurrogate (code : Nat) : Bool := 0xD800 ≤ code && code < 0xDC00

/-- Whether a code closes a surrogate pair. -/
def isLowSurrogate (code : Nat) : Bool := 0xDC00 ≤ code && code < 0xE000

/-- The characters that string elements stand for. Two surrogate codes make one character; a
surrogate without its partner stands for none. -/
def joinPieces : List Piece → Option (List Char)
  | [] => some []
  | .char c :: rest => (joinPieces rest).map (c :: ·)
  | .code high :: .code low :: rest =>
      if isHighSurrogate high then
        if isLowSurrogate low then
          (joinPieces rest).map
            (Char.ofNat (0x10000 + (high - 0xD800) * 0x400 + (low - 0xDC00)) :: ·)
        else none
      else if isLowSurrogate high then none
      else (joinPieces (.code low :: rest)).map (Char.ofNat high :: ·)
  | .code code :: rest =>
      if isHighSurrogate code || isLowSurrogate code then none
      else (joinPieces rest).map (Char.ofNat code :: ·)

/-- Reads a string whose opening quote is already behind. -/
def scanString (cs : List Char) : Option (Token × List Char) := do
  let (pieces, rest) ← scanPieces cs
  match joinPieces pieces with
  | some chars => return (.string (String.ofList chars), rest)
  | none => return (.unpaired, rest)

/-- The spelling of a character inside a string. -/
def escape (c : Char) : List Char :=
  if c = '"' then ['\\', '"']
  else if c = '\\' then ['\\', '\\']
  else if c = '\x08' then ['\\', 'b']
  else if c = '\x0c' then ['\\', 'f']
  else if c = '\n' then ['\\', 'n']
  else if c = '\r' then ['\\', 'r']
  else if c = '\t' then ['\\', 't']
  else if c < ' ' then
    ['\\', 'u', '0', '0', hexDigit (c.toNat / 16), hexDigit (c.toNat % 16)]
  else [c]

/-- The spelling of a string. -/
def quote (text : String) : List Char :=
  '"' :: (text.toList.flatMap escape ++ ['"'])

/-! ### Numbers -/

/-- Digits before the point: at least one, and no leading zero. -/
def isWholePart : List Char → Bool
  | [] => false
  | ['0'] => true
  | c :: _ => c ≠ '0'

/-- The digits behind a point, at least one, if there is a point. -/
def scanFraction : List Char → Option (List Char × List Char)
  | '.' :: rest =>
      let digits := rest.takeWhile Char.isDigit
      if digits.isEmpty then none else some (digits, rest.dropWhile Char.isDigit)
  | rest => some ([], rest)

/-- The sign of an exponent, if it has one. -/
def scanSign : List Char → List Char × List Char
  | '+' :: rest => (['+'], rest)
  | '-' :: rest => (['-'], rest)
  | rest => ([], rest)

/-- The value of an exponent. -/
def exponentValue (sign digits : List Char) : Int :=
  if sign = ['-'] then -(digitsValue digits : Int) else digitsValue digits

/-- An exponent with at least one digit, if there is an exponent: its value and its spelling. -/
def scanExponent : List Char → Option ((Int × List Char) × List Char)
  | [] => some ((0, []), [])
  | c :: rest =>
      if c = 'e' ∨ c = 'E' then
        let (sign, rest) := scanSign rest
        let digits := rest.takeWhile Char.isDigit
        if digits.isEmpty then none
        else some ((exponentValue sign digits, c :: sign ++ digits), rest.dropWhile Char.isDigit)
      else some ((0, []), c :: rest)

/-- Reads a number without its sign. -/
def scanUnsigned (negative : Bool) (cs : List Char) : Option (Token × List Char) := do
  let whole := cs.takeWhile Char.isDigit
  if !isWholePart whole then none
  let (fraction, rest) ← scanFraction (cs.dropWhile Char.isDigit)
  let ((exponent, exponentSpelling), rest) ← scanExponent rest
  let value := digitsValue whole
  if Numeral.isOutOfRange { whole, fraction, exponent } then return (.outOfRange, rest)
  else if !fraction.isEmpty || !exponentSpelling.isEmpty || (negative && value = 0) then
    let point := if fraction.isEmpty then [] else ['.']
    let spelling := whole ++ point ++ fraction ++ exponentSpelling
    return (.decimal (if negative then '-' :: spelling else spelling), rest)
  else return (.integer (if negative then -(value : Int) else value), rest)

/-- Reads a number. -/
def scanNumber : List Char → Option (Token × List Char)
  | '-' :: rest => scanUnsigned true rest
  | cs => scanUnsigned false cs

/-- The spelling of an integer. -/
def spellInteger : Int → List Char
  | .ofNat value => Nat.toDigits 10 value
  | .negSucc value => '-' :: Nat.toDigits 10 (value + 1)

/-! ### Tokens -/

/-- Reads one token, if the text starts with one. -/
def scanToken : List Char → Option (Token × List Char)
  | '{' :: rest => some (.openBrace, rest)
  | '}' :: rest => some (.closeBrace, rest)
  | '[' :: rest => some (.openBracket, rest)
  | ']' :: rest => some (.closeBracket, rest)
  | ',' :: rest => some (.comma, rest)
  | ':' :: rest => some (.colon, rest)
  | '"' :: rest => scanString rest
  | 'n' :: 'u' :: 'l' :: 'l' :: rest => some (.null, rest)
  | 't' :: 'r' :: 'u' :: 'e' :: rest => some (.bool true, rest)
  | 'f' :: 'a' :: 'l' :: 's' :: 'e' :: rest => some (.bool false, rest)
  | cs => scanNumber cs

/-- Reads at most the given number of tokens and blanks; none, if more text is left. -/
def scanUpTo : Nat → List Char → Option (List Token)
  | _, [] => some []
  | 0, _ :: _ => none
  | bound + 1, c :: rest =>
      if isBlank c then scanUpTo bound rest
      else do
        let (token, rest) ← scanToken (c :: rest)
        let tokens ← scanUpTo bound rest
        return token :: tokens

/-- The tokens of a text. Every token and every blank takes at least one character, so the length
of the text bounds their number. -/
def scan (cs : List Char) : Option (List Token) := scanUpTo cs.length cs

/-- The shortest spelling of a token. -/
def Token.spell : Token → List Char
  | openBrace => ['{']
  | closeBrace => ['}']
  | openBracket => ['[']
  | closeBracket => [']']
  | comma => [',']
  | colon => [':']
  | null => ['n', 'u', 'l', 'l']
  | bool true => ['t', 'r', 'u', 'e']
  | bool false => ['f', 'a', 'l', 's', 'e']
  | integer value => spellInteger value
  | decimal spelling => spelling
  | string value => quote value
  | unpaired => ['"', '\\', 'u', 'd', '8', '0', '0', '"']
  | outOfRange => ['1', 'e', '3', '0', '9']

end Lcpl.Json
