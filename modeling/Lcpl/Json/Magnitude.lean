/-!
# The size of numbers

A number stands for a double: a number with 53 significant bits, below `2 ^ 1024`. Its digits give a
significand, of which no more is read than fits into 64 bits, and the place of the point and the
exponent give a power of ten. Both are rounded to doubles before they are multiplied, and the
product is rounded once more.

A number whose product is too large stands for no double. Whether that is so is computed here with
natural numbers.

## Main definitions

* `Json.roundSignificant` — the nearest number with 53 significant bits
* `Json.Numeral` — the parts of a written number
* `Json.Numeral.isOutOfRange` — whether a number is too large for a double
-/

namespace Lcpl.Json

/-- The value of a decimal digit. -/
def digitValue (digit : Char) : Nat := digit.toNat - '0'.toNat

/-- The value of decimal digits, the most significant first. -/
def digitsValue (digits : List Char) : Nat :=
  digits.foldl (fun value digit => value * 10 + digitValue digit) 0

/-- The nearest number with 53 significant bits. Of two that are equally near, it is the one whose
last bit is zero. -/
def roundSignificant (value : Nat) : Nat :=
  let unit := Nat.pow 2 (value.log2 + 1 - 53)
  let units := value / unit
  let rest := value % unit
  if unit < 2 * rest || (unit = 2 * rest && units % 2 = 1) then (units + 1) * unit
  else units * unit

/-- Reads digits into a significand as long as it stays below `2 ^ 64`, and returns those left. -/
def readDigits (significand : Nat) : List Char → Nat × List Char
  | [] => (significand, [])
  | digit :: digits =>
      let next := significand * 10 + digitValue digit
      if next < UInt64.size then readDigits next digits else (significand, digit :: digits)

/-- The parts of a number without its sign: the digits before the point, the digits behind it, and
the exponent. -/
structure Numeral where
  whole : List Char
  fraction : List Char
  exponent : Int
deriving DecidableEq, Repr

namespace Numeral

/-- The significand of a number, and the power of ten it is multiplied by. A digit before the point
that was not read adds to the power; a digit behind the point that was read takes from it. -/
def scaled (numeral : Numeral) : Nat × Int :=
  let (significand, unread) := readDigits 0 numeral.whole
  let (significand, ignored) := readDigits significand numeral.fraction
  (significand, unread.length - (numeral.fraction.length - ignored.length : Int) + numeral.exponent)

/-- Whether a number is too large for a double. `10 ^ 308` is the largest power of ten that is a
double. -/
def isOutOfRange (numeral : Numeral) : Bool :=
  let (significand, power) := numeral.scaled
  if significand = 0 || power ≤ 0 then false
  else if 308 < power then true
  else
    Nat.pow 2 1024 ≤
      roundSignificant (roundSignificant significand * roundSignificant (Nat.pow 10 power.toNat))

end Numeral

/-- Further digits never make a value smaller. -/
theorem le_foldl_digits (digits : List Char) (value : Nat) :
    value ≤ digits.foldl (fun value digit => value * 10 + digitValue digit) value := by
  induction digits generalizing value with
  | nil => exact Nat.le_refl value
  | cons digit digits ih =>
      have := ih (value * 10 + digitValue digit)
      simp only [List.foldl_cons]
      omega

/-- A significand takes in all digits of a number that fits. -/
theorem readDigits_of_lt (digits : List Char) (significand : Nat)
    (h : digits.foldl (fun value digit => value * 10 + digitValue digit) significand <
      UInt64.size) :
    (readDigits significand digits).2 = [] := by
  induction digits generalizing significand with
  | nil => rfl
  | cons digit digits ih =>
      simp only [List.foldl_cons] at h
      have fits := Nat.lt_of_le_of_lt (le_foldl_digits digits _) h
      simp only [readDigits, if_pos fits]
      exact ih _ h

/-- An integer of 64 bits is in range. -/
theorem Numeral.isOutOfRange_of_lt {digits : List Char} (h : digitsValue digits < UInt64.size) :
    (Numeral.mk digits [] 0).isOutOfRange = false := by
  have unread := readDigits_of_lt digits 0 h
  simp [isOutOfRange, scaled, readDigits, unread]

end Lcpl.Json
