import Mathlib.Data.List.Basic
import Lcpl.Json.Token

/-!
# Scanning what was spelled

The scanner finds a token again where the token was spelled, and goes on behind it. Only a number
can run on into the text behind it, so that text must not continue a number.

Spelled strings have escapes. Each character is read as one element, and the elements join to the
characters again: none of the escaped codes is a surrogate.

## Main definitions

* `Json.Avoids`, `Json.Delimits` — a text that does not start with certain characters, and one that
  does not continue a number
* `Json.Token.IsExact` — a token that its spelling determines

## Main results

* `Json.scanToken_spell` — a spelled token is read back
* `Json.scan_blanks` — scanning goes on behind white space
-/

namespace Lcpl.Json

/-! ### Strings -/

/-- The element of a string literal that a character is spelled as. -/
def pieceOf (c : Char) : Piece :=
  if c ∈ ['"', '\\', '\x08', '\x0c', '\n', '\r', '\t'] then .char c
  else if c < ' ' then .code c.toNat
  else .char c

/-- Two digits are enough for the code of a control character. -/
theorem hexCode?_hexDigit :
    ∀ code < 32, hexCode? '0' '0' (hexDigit (code / 16)) (hexDigit (code % 16)) = some code := by
  decide

theorem toNat_lt_of_lt_space {c : Char} (h : c < ' ') : c.toNat < 32 := h

theorem scanPieces_raw {c : Char} {cs : List Char} (hquote : c ≠ '"') (hbackslash : c ≠ '\\')
    (hspace : ¬ c < ' ') :
    scanPieces (c :: cs) = (scanPieces cs).map fun (pieces, rest) => (.char c :: pieces, rest) := by
  rw [scanPieces]
  · rw [if_neg hspace]
    cases scanPieces cs <;> rfl
  all_goals simp_all

theorem scanPieces_letter {letter c : Char} {cs : List Char} (hletter : letter ≠ 'u')
    (h : unescape? letter = some c) :
    scanPieces ('\\' :: letter :: cs) =
      (scanPieces cs).map fun (pieces, rest) => (.char c :: pieces, rest) := by
  rw [scanPieces]
  · rw [h]
    cases scanPieces cs <;> rfl
  · simp_all

/-- A spelled character is read as one element. -/
theorem scanPieces_escape (c : Char) (cs : List Char) :
    scanPieces (escape c ++ cs) =
      (scanPieces cs).map fun (pieces, rest) => (pieceOf c :: pieces, rest) := by
  unfold escape
  split_ifs with hquote hbackslash hb hf hn hr ht hspace
  · subst hquote; exact scanPieces_letter (by decide) rfl
  · subst hbackslash; exact scanPieces_letter (by decide) rfl
  · subst hb; exact scanPieces_letter (by decide) rfl
  · subst hf; exact scanPieces_letter (by decide) rfl
  · subst hn; exact scanPieces_letter (by decide) rfl
  · subst hr; exact scanPieces_letter (by decide) rfl
  · subst ht; exact scanPieces_letter (by decide) rfl
  · -- the other control characters, which are spelled with four digits
    have hpiece : pieceOf c = .code c.toNat := by simp [pieceOf, *]
    have hcode := hexCode?_hexDigit c.toNat (toNat_lt_of_lt_space hspace)
    simp only [List.cons_append, List.nil_append, scanPieces, hcode, hpiece]
    cases scanPieces cs <;> rfl
  · have hpiece : pieceOf c = .char c := by simp [pieceOf, *]
    rw [hpiece]
    exact scanPieces_raw hquote hbackslash hspace

/-- A code that is no surrogate stands for a character by itself. -/
theorem joinPieces_code {code : Nat} {pieces : List Piece} (h : code < 0xD800) :
    joinPieces (.code code :: pieces) = (joinPieces pieces).map (Char.ofNat code :: ·) := by
  have hhigh : isHighSurrogate code = false := by
    simp [isHighSurrogate]
    omega
  have hlow : isLowSurrogate code = false := by
    simp [isLowSurrogate]
    omega
  -- the next element matters only to a high surrogate
  rcases pieces with _ | ⟨piece, pieces⟩
  · simp [joinPieces, hhigh, hlow]
  · cases piece <;> simp [joinPieces, hhigh, hlow]

theorem joinPieces_pieceOf (c : Char) (pieces : List Piece) :
    joinPieces (pieceOf c :: pieces) = (joinPieces pieces).map (c :: ·) := by
  unfold pieceOf
  split_ifs with hletter hspace
  · rfl
  · have hlt := toNat_lt_of_lt_space hspace
    rw [joinPieces_code (by omega), Char.ofNat_toNat]
  · rfl

theorem joinPieces_map_pieceOf (cs : List Char) : joinPieces (cs.map pieceOf) = some cs := by
  induction cs with
  | nil => rfl
  | cons c cs ih => rw [List.map_cons, joinPieces_pieceOf, ih, Option.map_some]

theorem scanPieces_flatMap_escape (cs rest : List Char) :
    scanPieces (cs.flatMap escape ++ '"' :: rest) = some (cs.map pieceOf, rest) := by
  induction cs with
  | nil => rfl
  | cons c cs ih =>
    rw [List.flatMap_cons, List.append_assoc, scanPieces_escape, ih, Option.map_some]
    rfl

/-- A string is read back, whatever is in it. -/
theorem scanString_quote (text : String) (rest : List Char) :
    scanString (text.toList.flatMap escape ++ '"' :: rest) = some (.string text, rest) := by
  simp [scanString, scanPieces_flatMap_escape, joinPieces_map_pieceOf]

/-! ### Numbers -/

/-- A text that does not start with such a character. -/
def Avoids (p : Char → Bool) (cs : List Char) : Prop := ∀ c ∈ cs.head?, p c = false

theorem Avoids.mono {p q : Char → Bool} {cs : List Char} (h : Avoids p cs)
    (hpq : ∀ c, q c = true → p c = true) :
    Avoids q cs := by
  intro c hc
  have hp := h c hc
  by_contra hq
  rw [hpq c (by simpa using hq)] at hp
  cases hp

theorem Avoids.append {p : Char → Bool} {cs rest : List Char} (h : Avoids p cs)
    (hrest : Avoids p rest) :
    Avoids p (cs ++ rest) := by
  cases cs with
  | nil => exact hrest
  | cons c cs => exact h

theorem avoids_dropWhile (p : Char → Bool) (cs : List Char) : Avoids p (cs.dropWhile p) := by
  intro c hc
  have hhead := List.head?_dropWhile_not p cs
  rw [hc] at hhead
  simpa using hhead

/-- Characters of one sort are read up to the first of another sort. -/
theorem span_append {p : Char → Bool} (own more : List Char) (hown : ∀ c ∈ own, p c = true)
    (hmore : Avoids p more) :
    (own ++ more).takeWhile p = own ∧ (own ++ more).dropWhile p = more := by
  rw [List.takeWhile_append_of_pos hown, List.dropWhile_append_of_pos hown]
  cases more with
  | nil => simp
  | cons c more => simp [hmore c rfl]

/-- Whether a character behind the digits of a number belongs to the number. -/
def continuesNumber (c : Char) : Bool := c.isDigit || c = '.' || c = 'e' || c = 'E'

/-- A text that does not continue a number. -/
def Delimits (cs : List Char) : Prop := ∀ c ∈ cs.head?, continuesNumber c = false

theorem delimits_nil : Delimits [] := nofun

theorem delimits_cons {c : Char} {cs : List Char} (h : continuesNumber c = false) :
    Delimits (c :: cs) := by
  intro d hd
  obtain rfl : c = d := Option.some_inj.mp hd
  exact h

theorem isDigit_of_mem_toDigits {value : Nat} {c : Char} (h : c ∈ Nat.toDigits 10 value) :
    c.isDigit = true := Nat.isDigit_of_mem_toDigits (by decide) (by decide) h

theorem digitsValue_toDigits (value : Nat) : digitsValue (Nat.toDigits 10 value) = value := by
  have hvalue : Nat.ofDigitChars 10 (Nat.toDigits 10 value) 0 = value :=
    Nat.ofDigitChars_toDigits (by decide) (by decide)
  rw [Nat.ofDigitChars_eq_foldl] at hvalue
  simpa only [digitsValue, digitValue, Nat.mul_comm] using hvalue

/-- No number but zero is spelled with a zero in front. -/
theorem isWholePart_toDigits (value : Nat) : isWholePart (Nat.toDigits 10 value) = true := by
  by_cases hzero : value = 0
  · subst hzero
    rfl
  · suffices h : ∃ c cs, Nat.toDigits 10 value = c :: cs ∧ c ≠ '0' by
      obtain ⟨c, cs, hdigits, hc⟩ := h
      rw [hdigits, isWholePart]
      · simpa using hc
      · simp_all
    -- the first digit of a number is that of its tenth part
    induction value using Nat.strongRecOn with
    | ind value ih =>
      by_cases hlt : value < 10
      · refine ⟨_, [], Nat.toDigits_of_lt_base hlt, ?_⟩
        have hdigit : ∀ digit < 10, digit ≠ 0 → Nat.digitChar digit ≠ '0' := by decide
        exact hdigit value hlt hzero
      · obtain ⟨c, cs, hdigits, hc⟩ := ih (value / 10) (by omega) (by omega)
        refine ⟨c, cs ++ [Nat.digitChar (value % 10)], ?_, hc⟩
        rw [Nat.toDigits_of_base_le (by decide) (by omega), hdigits, List.cons_append]

section

variable {rest : List Char} (h : Delimits rest)
include h

theorem scanFraction_of_delimits : scanFraction rest = some ([], rest) := by
  unfold scanFraction
  split
  · next rest' =>
    have hcontinues : continuesNumber '.' = false := h '.' rfl
    cases hcontinues
  · rfl

theorem scanExponent_of_delimits : scanExponent rest = some ((0, []), rest) := by
  rcases rest with _ | ⟨c, cs⟩
  · rfl
  · have hcontinues := h c rfl
    rw [scanExponent, if_neg]
    rintro (rfl | rfl)
    · cases hcontinues
    · cases hcontinues

/-- The digits of a number of 64 bits are read back, with its sign. -/
theorem scanUnsigned_toDigits (negative : Bool) {value : Nat} (hvalue : value < UInt64.size)
    (hsign : negative = true → value ≠ 0) :
    scanUnsigned negative (Nat.toDigits 10 value ++ rest) =
      some (.integer (if negative then -(value : Int) else value), rest) := by
  obtain ⟨htake, hdrop⟩ := span_append (Nat.toDigits 10 value) rest
    (fun c hc => isDigit_of_mem_toDigits hc)
    (Avoids.mono h fun c hc => by simp [continuesNumber, hc])
  -- any number of 64 bits is small enough to be read exactly
  have hrange : (Numeral.mk (Nat.toDigits 10 value) [] 0).isOutOfRange = false :=
    Numeral.isOutOfRange_of_lt (by rwa [digitsValue_toDigits])
  have hzero : (negative && decide (value = 0)) = false := by
    cases negative with
    | false => rfl
    | true => simpa using hsign rfl
  simp [scanUnsigned, htake, hdrop, isWholePart_toDigits, scanFraction_of_delimits h,
    scanExponent_of_delimits h, hrange, digitsValue_toDigits, hzero]

theorem scanNumber_spellInteger {value : Int} (hvalue : value.natAbs < UInt64.size) :
    scanNumber (spellInteger value ++ rest) = some (.integer value, rest) := by
  cases value with
  | ofNat value =>
    rw [spellInteger, scanNumber]
    · exact scanUnsigned_toDigits h false hvalue nofun
    · -- no digit is taken for a sign
      intro cs hcs
      have hmem : '-' ∈ Nat.toDigits 10 value := by
        rcases hdigits : Nat.toDigits 10 value with _ | ⟨c, digits⟩
        · exact absurd hdigits Nat.toDigits_ne_nil
        · rw [hdigits] at hcs
          obtain ⟨rfl, -⟩ := List.cons.inj hcs
          exact List.mem_cons_self
      cases isDigit_of_mem_toDigits hmem
  | negSucc value =>
    have hdigits := scanUnsigned_toDigits h true (show value + 1 < UInt64.size from hvalue)
      fun _ => Nat.succ_ne_zero value
    rw [spellInteger, List.cons_append, scanNumber, hdigits]
    rfl

end

/-! ### Tokens -/

/-- A token that its spelling determines: any but a number that is too large or not an integer. -/
def Token.IsExact : Token → Prop
  | .integer value => value.natAbs < UInt64.size
  | .decimal _ | .outOfRange => False
  | _ => True

/-- A text that starts with a digit or a sign starts with a number. -/
theorem scanToken_number {c : Char} {cs : List Char} (h : c.isDigit = true ∨ c = '-') :
    scanToken (c :: cs) = scanNumber (c :: cs) := by
  unfold scanToken
  split <;> simp_all [Char.isDigit]

theorem exists_spellInteger (value : Int) :
    ∃ c cs, spellInteger value = c :: cs ∧ (c.isDigit = true ∨ c = '-') := by
  cases value with
  | ofNat value =>
    rcases hdigits : Nat.toDigits 10 value with _ | ⟨c, cs⟩
    · exact absurd hdigits Nat.toDigits_ne_nil
    · exact ⟨c, cs, hdigits, .inl (isDigit_of_mem_toDigits (hdigits ▸ List.mem_cons_self))⟩
  | negSucc value => exact ⟨'-', _, rfl, .inr rfl⟩

/-- A spelled token is read back, and nothing behind it is touched. -/
theorem scanToken_spell {token : Token} (htoken : token.IsExact) {rest : List Char}
    (h : ∀ value, token = .integer value → Delimits rest) :
    scanToken (token.spell ++ rest) = some (token, rest) := by
  cases token with
  | openBrace => rfl
  | closeBrace => rfl
  | openBracket => rfl
  | closeBracket => rfl
  | comma => rfl
  | colon => rfl
  | null => rfl
  | bool value => cases value <;> rfl
  | integer value =>
    obtain ⟨c, cs, hspell, hc⟩ := exists_spellInteger value
    have hnumber := scanNumber_spellInteger (h value rfl) htoken
    rw [Token.spell, ← hnumber, hspell, List.cons_append]
    exact scanToken_number hc
  | decimal => cases htoken
  | string value =>
    rw [Token.spell, quote, List.cons_append, List.append_assoc, List.singleton_append, scanToken]
    exact scanString_quote value rest
  | unpaired => rfl
  | outOfRange => cases htoken

/-- More steps than are needed change nothing. -/
theorem scanUpTo_mono {cs : List Char} {tokens : List Token} {bound bound' : Nat}
    (h : scanUpTo bound cs = some tokens) (hle : bound ≤ bound') :
    scanUpTo bound' cs = some tokens := by
  induction bound generalizing cs tokens bound' with
  | zero =>
    cases cs with
    | nil => simpa [scanUpTo] using h
    | cons => cases h
  | succ bound ih =>
    cases cs with
    | nil => simpa [scanUpTo] using h
    | cons c rest =>
      obtain ⟨bound', rfl⟩ := Nat.exists_eq_add_of_lt hle
      rw [scanUpTo] at h ⊢
      split at h
      · next hblank => rw [if_pos hblank]; exact ih h (by omega)
      · next hblank =>
        rw [if_neg hblank]
        simp only [Option.bind_eq_bind, Option.bind_eq_some_iff] at h ⊢
        obtain ⟨⟨token, rest'⟩, htoken, tokens', htokens, hrest⟩ := h
        exact ⟨(token, rest'), htoken, tokens', ih htokens (by omega), hrest⟩

/-- White space is dropped. -/
theorem scan_blanks {blanks rest : List Char} {tokens : List Token}
    (hblanks : ∀ c ∈ blanks, isBlank c = true) (h : scan rest = some tokens) :
    scan (blanks ++ rest) = some tokens := by
  induction blanks with
  | nil => exact h
  | cons c blanks ih =>
    rw [scan, List.cons_append, List.length_cons, scanUpTo, if_pos (hblanks c List.mem_cons_self)]
    exact ih fun d hd => hblanks d (List.mem_cons_of_mem c hd)

end Lcpl.Json
