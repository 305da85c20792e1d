import Mathlib.Data.List.TakeWhile
import Lcpl.Proofs.Json.Scan

/-!
# Texts and their tokens

A text is made of spelled tokens with white space before, between and behind them. Any spelling of a
token will do, and white space may stand anywhere between two tokens or be missing. Only a number
must not be followed at once by something that would continue it. The scanner returns the tokens of
exactly these texts.

Both directions rest on the same fact: a token is read without looking at what is behind it, except
that a number looks at one character.

## Main definitions

* `Json.Token.Spelled` — a text that is one token
* `Json.Spaced` — a text that is made of given tokens

## Main results

* `Json.exists_of_scanToken` — what a token is read from, whatever stands behind it
* `Json.scan_eq_some_iff` — the scanner returns the tokens that a text is made of
-/

namespace Lcpl.Json

variable {cs rest : List Char}

/-- Whether a token is a number. -/
def Token.isNumber : Token → Bool
  | .integer _ | .decimal _ | .outOfRange => true
  | _ => false

/-! ### Strings -/

/-- The elements of a string are read from its own characters. -/
theorem exists_of_scanPieces {pieces : List Piece} (h : scanPieces cs = some (pieces, rest)) :
    ∃ own, cs = own ++ rest ∧ ∀ more, scanPieces (own ++ more) = some (pieces, more) := by
  fun_induction scanPieces cs generalizing pieces rest with
  | case1 => cases h
  | case2 =>
    cases h
    exact ⟨['"'], rfl, fun _ => rfl⟩
  | case3 a b c d tail ih =>
    simp only [Option.bind_eq_bind, Option.bind_eq_some_iff] at h
    obtain ⟨code, hcode, ⟨later, _⟩, htail, hpieces⟩ := h
    cases hpieces
    obtain ⟨own, rfl, hown⟩ := ih htail
    refine ⟨'\\' :: 'u' :: a :: b :: c :: d :: own, rfl, fun more => ?_⟩
    simp [scanPieces, hcode, hown]
  | case4 letter tail _ ih =>
    simp only [Option.bind_eq_bind, Option.bind_eq_some_iff] at h
    obtain ⟨c, hc, ⟨later, _⟩, htail, hpieces⟩ := h
    cases hpieces
    obtain ⟨own, rfl, hown⟩ := ih htail
    have hletter : letter ≠ 'u' := by
      rintro rfl
      cases hc
    refine ⟨'\\' :: letter :: own, rfl, fun more => ?_⟩
    rw [List.cons_append, List.cons_append, scanPieces_letter hletter hc, hown, Option.map_some]
  | case5 => cases h
  | case6 c tail hquote _ hescape hspace ih =>
    simp only [Option.bind_eq_bind, Option.bind_eq_some_iff] at h
    obtain ⟨⟨later, _⟩, htail, hpieces⟩ := h
    cases hpieces
    obtain ⟨own, rfl, hown⟩ := ih htail
    -- a backslash at the very end opens no escape, and no closing quote follows it
    have hbackslash : c ≠ '\\' := by
      intro hc
      cases own with
      | nil => cases hown []
      | cons letter own => exact hescape letter _ hc rfl
    refine ⟨c :: own, rfl, fun more => ?_⟩
    rw [List.cons_append, scanPieces_raw hquote hbackslash hspace, hown, Option.map_some]

theorem exists_of_scanString {token : Token} (h : scanString cs = some (token, rest)) :
    token.isNumber = false ∧
      ∃ own, cs = own ++ rest ∧ ∀ more, scanString (own ++ more) = some (token, more) := by
  simp only [scanString, Option.bind_eq_bind, Option.bind_eq_some_iff] at h
  obtain ⟨⟨pieces, _⟩, hpieces, hjoin⟩ := h
  obtain ⟨own, rfl, hown⟩ := exists_of_scanPieces hpieces
  dsimp only at hjoin
  split at hjoin
  · next chars hchars =>
    cases hjoin
    exact ⟨rfl, own, rfl, fun more => by simp [scanString, hown, hchars]⟩
  · next hchars =>
    cases hjoin
    exact ⟨rfl, own, rfl, fun more => by simp [scanString, hown, hchars]⟩

/-! ### Numbers -/

/-- A digit, or the point behind the digits. -/
def isDigitOrPoint (c : Char) : Bool := c.isDigit || c = '.'

theorem exists_of_scanFraction {fraction : List Char}
    (h : scanFraction cs = some (fraction, rest)) :
    ∃ own, cs = own ++ rest ∧ (∀ c ∈ own.head?, c = '.') ∧
      (Avoids Char.isDigit cs → Avoids Char.isDigit rest) ∧
      ∀ more, Avoids isDigitOrPoint more → scanFraction (own ++ more) = some (fraction, more) := by
  unfold scanFraction at h
  split at h
  · next tail =>
    dsimp only at h
    split at h
    · cases h
    · next hdigits =>
      cases h
      refine ⟨'.' :: tail.takeWhile Char.isDigit, by simp, by simp, fun _ => avoids_dropWhile _ _,
        fun more hmore => ?_⟩
      obtain ⟨htake, hdrop⟩ := span_append (tail.takeWhile Char.isDigit) more
        (fun c hc => List.mem_takeWhile_imp hc)
        (hmore.mono fun c hc => by simp [isDigitOrPoint, hc])
      rw [List.cons_append, scanFraction, htake, hdrop, if_neg hdigits]
  · cases h
    refine ⟨[], rfl, nofun, id, fun more hmore => ?_⟩
    rw [List.nil_append]
    unfold scanFraction
    split
    · next tail => exact absurd (hmore '.' rfl) (by decide)
    · rfl

theorem scanSign_append {sign tail : List Char} (h : scanSign cs = (sign, tail))
    (own : List Char) (hown : own ≠ []) (hdigits : ∀ c ∈ own, c.isDigit = true) (more : List Char) :
    cs = sign ++ tail ∧ scanSign (sign ++ (own ++ more)) = (sign, own ++ more) := by
  unfold scanSign at h
  split at h <;> cases h
  · exact ⟨rfl, rfl⟩
  · exact ⟨rfl, rfl⟩
  · refine ⟨rfl, ?_⟩
    rw [List.nil_append]
    cases own with
    | nil => exact absurd rfl hown
    | cons c own =>
      have hc := hdigits c List.mem_cons_self
      unfold scanSign
      split <;> simp_all [Char.isDigit]

theorem exists_of_scanExponent {exponent : Int × List Char}
    (h : scanExponent cs = some (exponent, rest)) :
    ∃ own, cs = own ++ rest ∧ (∀ c ∈ own.head?, c = 'e' ∨ c = 'E') ∧
      (Avoids Char.isDigit cs → Avoids Char.isDigit rest) ∧
      ∀ more, Delimits more → scanExponent (own ++ more) = some (exponent, more) := by
  have hempty (more : List Char) (hmore : Delimits more) := scanExponent_of_delimits hmore
  cases cs with
  | nil =>
    cases h
    exact ⟨[], rfl, nofun, id, hempty⟩
  | cons c tail =>
    rw [scanExponent] at h
    split at h
    · next hc =>
      generalize hsign : scanSign tail = signed at h
      obtain ⟨sign, digits⟩ := signed
      dsimp only at h
      split at h
      · cases h
      · next hdigits =>
        cases h
        -- the exponent is its letter, its sign if it has one, and all the digits behind
        have hown : ∀ d ∈ digits.takeWhile Char.isDigit, d.isDigit = true :=
          fun d hd => List.mem_takeWhile_imp hd
        have happend := scanSign_append hsign (digits.takeWhile Char.isDigit)
          (by simpa using hdigits) hown
        refine ⟨c :: sign ++ digits.takeWhile Char.isDigit, ?_, by simpa using hc,
          fun _ => avoids_dropWhile _ _, fun more hmore => ?_⟩
        · rw [(happend []).1]
          simp
        · obtain ⟨htake, hdrop⟩ := span_append _ more hown
            (Avoids.mono hmore fun c hc => by simp [continuesNumber, hc])
          have hscan := (happend more).2
          rw [List.cons_append, List.cons_append, List.append_assoc, scanExponent, if_pos hc, hscan]
          dsimp only
          rw [htake, hdrop, if_neg hdigits]
          rfl
    · cases h
      exact ⟨[], rfl, nofun, id, hempty⟩

/-- The token that the parts of a number make. -/
def numberToken (negative : Bool) (whole fraction : List Char) (exponent : Int × List Char) :
    Token :=
  let value := digitsValue whole
  if Numeral.isOutOfRange { whole, fraction, exponent := exponent.1 } then .outOfRange
  else if !fraction.isEmpty || !exponent.2.isEmpty || (negative && value = 0) then
    let point := if fraction.isEmpty then [] else ['.']
    let spelling := whole ++ point ++ fraction ++ exponent.2
    .decimal (if negative then '-' :: spelling else spelling)
  else .integer (if negative then -(value : Int) else value)

theorem isNumber_numberToken (negative : Bool) (whole fraction : List Char)
    (exponent : Int × List Char) :
    (numberToken negative whole fraction exponent).isNumber = true := by
  unfold numberToken
  dsimp only
  split_ifs <;> rfl

/-- A number is read part by part. -/
theorem scanUnsigned_eq (negative : Bool) (cs : List Char) :
    scanUnsigned negative cs =
      if isWholePart (cs.takeWhile Char.isDigit) then
        (scanFraction (cs.dropWhile Char.isDigit)).bind fun (fraction, tail) =>
          (scanExponent tail).map fun (exponent, rest) =>
            (numberToken negative (cs.takeWhile Char.isDigit) fraction exponent, rest)
      else none := by
  unfold scanUnsigned numberToken
  by_cases hwhole : isWholePart (cs.takeWhile Char.isDigit) = true
  · rcases scanFraction (cs.dropWhile Char.isDigit) with _ | ⟨fraction, tail⟩
    · simp [hwhole]
    · rcases hexponent : scanExponent tail with _ | ⟨exponent, rest⟩
      · simp [hwhole, hexponent]
      · simp only [hwhole, hexponent, Bool.not_true, Bool.false_eq_true, if_false, if_true,
          Option.bind_eq_bind, Option.bind_some, Option.map_some]
        split_ifs <;> rfl
  · simp [hwhole]

theorem exists_of_scanUnsigned {negative : Bool} {token : Token}
    (h : scanUnsigned negative cs = some (token, rest)) :
    token.isNumber = true ∧ ∃ own, cs = own ++ rest ∧ (∃ c ∈ own.head?, c.isDigit = true) ∧
      Avoids Char.isDigit rest ∧
      ∀ more, Delimits more → scanUnsigned negative (own ++ more) = some (token, more) := by
  rw [scanUnsigned_eq, Option.ite_none_right_eq_some] at h
  obtain ⟨hwhole, h⟩ := h
  obtain ⟨⟨fraction, tail⟩, hfraction, h⟩ := Option.bind_eq_some_iff.mp h
  obtain ⟨⟨exponent, _⟩, hexponent, heq⟩ := Option.map_eq_some_iff.mp h
  cases heq
  obtain ⟨point, hpoint, hpointHead, hpointStop, hpointMore⟩ := exists_of_scanFraction hfraction
  obtain ⟨power, rfl, hpowerHead, hpowerStop, hpowerMore⟩ := exists_of_scanExponent hexponent
  have hdigits : ∀ c ∈ cs.takeWhile Char.isDigit, c.isDigit = true :=
    fun c hc => List.mem_takeWhile_imp hc
  refine ⟨isNumber_numberToken .., cs.takeWhile Char.isDigit ++ (point ++ power), ?_, ?_, ?_,
    fun more hmore => ?_⟩
  · rw [List.append_assoc, List.append_assoc, ← hpoint, List.takeWhile_append_dropWhile]
  · cases hcs : cs.takeWhile Char.isDigit with
    | nil => simp [hcs, isWholePart] at hwhole
    | cons c digits => exact ⟨c, rfl, hdigits c (by simp [hcs])⟩
  · exact hpowerStop (hpointStop (avoids_dropWhile _ _))
  · -- neither the exponent nor what follows the number continues the digits before it
    have htail : Avoids isDigitOrPoint (power ++ more) := by
      apply Avoids.append
      · intro c hc
        rcases hpowerHead c hc with rfl | rfl <;> rfl
      · exact Avoids.mono hmore fun c hc => by
          simp only [isDigitOrPoint, Bool.or_eq_true] at hc
          simp only [continuesNumber, Bool.or_eq_true]
          exact .inl (.inl hc)
    have hbehind : Avoids Char.isDigit (point ++ (power ++ more)) := by
      apply Avoids.append
      · intro c hc
        rw [hpointHead c hc]
        rfl
      · exact htail.mono fun c hc => by simp [isDigitOrPoint, hc]
    obtain ⟨htake, hdrop⟩ := span_append _ _ hdigits hbehind
    rw [List.append_assoc, List.append_assoc, scanUnsigned_eq, htake, hdrop, if_pos hwhole,
      hpointMore _ htail]
    simp [hpowerMore more hmore]

theorem exists_of_scanNumber {token : Token} (h : scanNumber cs = some (token, rest)) :
    token.isNumber = true ∧ ∃ own, cs = own ++ rest ∧
      (∃ c ∈ own.head?, c.isDigit = true ∨ c = '-') ∧
      Avoids Char.isDigit rest ∧
      ∀ more, Delimits more → scanNumber (own ++ more) = some (token, more) := by
  unfold scanNumber at h
  split at h
  · next tail =>
    obtain ⟨hnumber, own, rfl, -, hstop, hown⟩ := exists_of_scanUnsigned h
    exact ⟨hnumber, '-' :: own, rfl, ⟨'-', rfl, .inr rfl⟩, hstop, hown⟩
  · next hsign =>
    obtain ⟨hnumber, own, rfl, ⟨c, hc, hdigit⟩, hstop, hown⟩ := exists_of_scanUnsigned h
    refine ⟨hnumber, own, rfl, ⟨c, hc, .inl hdigit⟩, hstop, fun more hmore => ?_⟩
    rw [scanNumber]
    · exact hown more hmore
    · -- the first digit is no sign
      intro tail htail
      cases own with
      | nil => cases hc
      | cons d own =>
        obtain rfl : d = c := Option.some_inj.mp hc
        obtain ⟨rfl, -⟩ := List.cons.inj htail
        cases hdigit

/-! ### Tokens -/

/-- Whether a character may start a token that stands right behind a number. -/
def startsToken (c : Char) : Bool := !isBlank c && c ≠ '.' && c ≠ 'e' && c ≠ 'E'

/-- The token is read from its own characters. What stands behind them matters to numbers only. -/
structure Token.Owns (token : Token) (own : List Char) : Prop where
  start : ∃ c ∈ own.head?, startsToken c = true
  scan : ∀ more, (token.isNumber = true → Delimits more) →
    scanToken (own ++ more) = some (token, more)

theorem Token.Owns.of_cons {token : Token} {c : Char} {own : List Char}
    (hstart : startsToken c = true)
    (h : ∀ more, scanToken (c :: own ++ more) = some (token, more)) : token.Owns (c :: own) :=
  ⟨⟨c, rfl, hstart⟩, fun more _ => h more⟩

theorem startsToken_of_number {c : Char} (h : c.isDigit = true ∨ c = '-') :
    startsToken c = true := by
  by_contra hstart
  simp only [startsToken, isBlank, Bool.and_eq_true, Bool.not_eq_true', Bool.or_eq_false_iff,
    decide_eq_true_eq, decide_eq_false_iff_not, not_and_or, not_not] at hstart
  rcases hstart with (((((rfl | rfl) | rfl) | rfl) | rfl) | rfl) | rfl <;> revert h <;> decide

/-- What a token is read from. -/
theorem exists_of_scanToken {token : Token} (h : scanToken cs = some (token, rest)) :
    ∃ own, cs = own ++ rest ∧ token.Owns own ∧
      (token.isNumber = true → Avoids Char.isDigit rest) := by
  unfold scanToken at h
  split at h
  · cases h; exact ⟨['{'], rfl, .of_cons rfl fun _ => rfl, nofun⟩
  · cases h; exact ⟨['}'], rfl, .of_cons rfl fun _ => rfl, nofun⟩
  · cases h; exact ⟨['['], rfl, .of_cons rfl fun _ => rfl, nofun⟩
  · cases h; exact ⟨[']'], rfl, .of_cons rfl fun _ => rfl, nofun⟩
  · cases h; exact ⟨[','], rfl, .of_cons rfl fun _ => rfl, nofun⟩
  · cases h; exact ⟨[':'], rfl, .of_cons rfl fun _ => rfl, nofun⟩
  · obtain ⟨hstring, own, rfl, hown⟩ := exists_of_scanString h
    exact ⟨'"' :: own, rfl, .of_cons rfl hown, by simp [hstring]⟩
  · cases h; exact ⟨['n', 'u', 'l', 'l'], rfl, .of_cons rfl fun _ => rfl, nofun⟩
  · cases h; exact ⟨['t', 'r', 'u', 'e'], rfl, .of_cons rfl fun _ => rfl, nofun⟩
  · cases h; exact ⟨['f', 'a', 'l', 's', 'e'], rfl, .of_cons rfl fun _ => rfl, nofun⟩
  · -- what starts none of the other tokens is read as a number
    obtain ⟨hnumber, own, rfl, ⟨c, hc, hstart⟩, hstop, hown⟩ := exists_of_scanNumber h
    cases own with
    | nil => cases hc
    | cons d own =>
      obtain rfl : d = c := Option.some_inj.mp hc
      refine ⟨d :: own, rfl, ⟨⟨d, rfl, startsToken_of_number hstart⟩, fun more hmore => ?_⟩,
        fun _ => hstop⟩
      rw [List.cons_append, scanToken_number hstart]
      exact hown more (hmore hnumber)

/-- The text is one token. -/
def Token.Spelled (token : Token) (own : List Char) : Prop := scanToken own = some (token, [])

theorem Token.Spelled.owns {token : Token} {own : List Char} (h : token.Spelled own) :
    token.Owns own := by
  obtain ⟨own', rfl, howns, -⟩ := exists_of_scanToken h
  rwa [List.append_nil]

theorem Token.Owns.spelled {token : Token} {own : List Char} (h : token.Owns own) :
    token.Spelled own := by
  have hscan := h.scan [] fun _ => delimits_nil
  rwa [List.append_nil] at hscan

/-! ### Texts -/

/-- The text is made of the tokens, with white space anywhere between them. A number ends where the
text does not continue it. -/
inductive Spaced : List Token → List Char → Prop where
  | nil : Spaced [] []
  | blank {c tokens rest} (hc : isBlank c = true) (h : Spaced tokens rest) :
      Spaced tokens (c :: rest)
  | token {token own tokens rest} (hown : token.Spelled own)
      (hend : token.isNumber = true → Delimits rest) (h : Spaced tokens rest) :
      Spaced (token :: tokens) (own ++ rest)

theorem continuesNumber_of_isBlank {c : Char} (h : isBlank c = true) :
    continuesNumber c = false := by
  simp only [isBlank, Bool.or_eq_true, decide_eq_true_eq] at h
  rcases h with ((rfl | rfl) | rfl) | rfl <;> rfl

/-- Such a text does not go on like a number, digits apart. -/
theorem Spaced.delimits {tokens : List Token} (h : Spaced tokens cs)
    (hstop : Avoids Char.isDigit cs) : Delimits cs := by
  intro c hc
  have hdigit := hstop c hc
  cases h with
  | nil => cases hc
  | blank hblank =>
    obtain rfl := Option.some_inj.mp hc
    exact continuesNumber_of_isBlank hblank
  | @token _ own _ _ hown =>
    -- of what continues a number only a digit starts a token
    obtain ⟨d, hd, hstart⟩ := hown.owns.start
    cases own with
    | nil => cases hd
    | cons _ own =>
      obtain rfl := Option.some_inj.mp hc
      obtain rfl := Option.some_inj.mp hd
      simp only [startsToken, Bool.and_eq_true, decide_eq_true_eq] at hstart
      simp [continuesNumber, hdigit, hstart]

/-- Scanning goes on behind a token. -/
theorem scan_of_scanToken {token : Token} {own : List Char} {tokens : List Token}
    (hown : token.Spelled own) (hend : token.isNumber = true → Delimits rest)
    (h : scan rest = some tokens) : scan (own ++ rest) = some (token :: tokens) := by
  obtain ⟨⟨d, hd, hstart⟩, hscan⟩ := hown.owns
  have hscan := hscan rest hend
  cases own with
  | nil => cases hd
  | cons c own =>
    obtain rfl := Option.some_inj.mp hd
    have hblank : isBlank c = false := by
      simp only [startsToken, Bool.and_eq_true, Bool.not_eq_true'] at hstart
      exact hstart.1.1.1
    -- one step is spent on the token, however many characters it has
    have htail : scanUpTo (own ++ rest).length rest = some tokens :=
      scanUpTo_mono h (by simp)
    rw [List.cons_append] at hscan ⊢
    rw [scan, List.length_cons, scanUpTo, hblank]
    simp [-List.length_append, hscan, htail]

theorem Spaced.scan_eq {tokens : List Token} (h : Spaced tokens cs) : scan cs = some tokens := by
  induction h with
  | nil => rfl
  | @blank c tokens rest hc _ ih =>
    rw [← List.singleton_append]
    exact scan_blanks (List.forall_mem_singleton.mpr hc) ih
  | token hown hend _ ih => exact scan_of_scanToken hown hend ih

theorem spaced_of_scanUpTo {bound : Nat} {tokens : List Token}
    (h : scanUpTo bound cs = some tokens) : Spaced tokens cs := by
  induction bound generalizing cs tokens with
  | zero =>
    cases cs with
    | nil =>
      cases h
      exact .nil
    | cons => cases h
  | succ bound ih =>
    cases cs with
    | nil =>
      cases h
      exact .nil
    | cons c cs =>
      rw [scanUpTo] at h
      by_cases hblank : isBlank c = true
      · rw [if_pos hblank] at h
        exact .blank hblank (ih h)
      · rw [if_neg hblank] at h
        simp only [Option.bind_eq_bind, Option.bind_eq_some_iff] at h
        obtain ⟨⟨token, rest⟩, htoken, tokens', htokens, heq⟩ := h
        cases heq
        -- digits would have been taken for the number, so what follows it ends it
        obtain ⟨own, hcs, howns, hstop⟩ := exists_of_scanToken htoken
        have hrest := ih htokens
        rw [hcs]
        exact .token howns.spelled (fun hnumber => hrest.delimits (hstop hnumber)) hrest

/-- The scanner returns the tokens that a text is made of. -/
theorem scan_eq_some_iff {tokens : List Token} : scan cs = some tokens ↔ Spaced tokens cs :=
  ⟨spaced_of_scanUpTo, Spaced.scan_eq⟩

end Lcpl.Json
