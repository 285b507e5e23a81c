import SelfTypes.Toml.Value

/-!
# TOML numbers

Integers are decimal with an optional sign, or hexadecimal, octal or binary behind a mark.
Underscores may stand between two digits. A decimal has no leading zero. A number with a fraction
or an exponent is one that a 64-bit floating-point number can come close to.
-/

namespace SelfTypes.Toml

/-- The digits of a number without the underscores between them. -/
def digitGroups (isDigit : Char → Bool) : (afterDigit : Bool) → List Char → Option (List Char)
  | afterDigit, [] => if afterDigit then some [] else none
  | afterDigit, c :: cs =>
    if isDigit c then (c :: ·) <$> digitGroups isDigit true cs
    else if c = '_' ∧ afterDigit then digitGroups isDigit false cs
    else none

/-- The value of a digit, in letters of either case beyond nine. -/
def digitValue (c : Char) : Nat :=
  if c.isDigit then c.toNat - '0'.toNat
  else if c.isUpper then c.toNat - 'A'.toNat + 10
  else c.toNat - 'a'.toNat + 10

/-- Whether a character is a digit in the given base. -/
def isDigitIn (base : Nat) (c : Char) : Bool :=
  c.isAlphanum && digitValue c < base

/-- The number that digits spell in the given base. -/
def digitsValue (base : Nat) (cs : List Char) : Nat :=
  cs.foldl (fun n c => n * base + digitValue c) 0

/-- A number in the given base. -/
def natural? (base : Nat) (cs : List Char) : Option Nat :=
  digitsValue base <$> digitGroups (isDigitIn base) false cs

/-- The digits of a decimal without leading zeros. -/
def decimalDigits? (cs : List Char) : Option (List Char) :=
  match digitGroups Char.isDigit false cs with
  | some ('0' :: _ :: _) => none
  | digits => digits

/-- A decimal without leading zeros. -/
def decimal? (cs : List Char) : Option Nat :=
  (Nat.ofDigitChars 10 · 0) <$> decimalDigits? cs

/-- Splits a sign off; the flag tells whether it is a minus. -/
def splitSign : List Char → Bool × List Char
  | '-' :: cs => (true, cs)
  | '+' :: cs => (false, cs)
  | cs => (false, cs)

/-- An integer of any size. -/
def anyInteger? : List Char → Option Int
  | '0' :: 'x' :: cs => Int.ofNat <$> natural? 16 cs
  | '0' :: 'o' :: cs => Int.ofNat <$> natural? 8 cs
  | '0' :: 'b' :: cs => Int.ofNat <$> natural? 2 cs
  | cs =>
    match splitSign cs with
    | (true, digits) => (fun n : Nat => -(n : Int)) <$> decimal? digits
    | (false, digits) => Int.ofNat <$> decimal? digits

/-- An integer that 128 bits can hold, with or without a sign. -/
def integer? (cs : List Char) : Option Int := do
  let n ← anyInteger? cs
  if -(Int.pow 2 127) ≤ n ∧ n < Int.pow 2 128 then some n else none

/-! ## Numbers with a fraction or an exponent -/

/-- An exponent: a sign and digits, which may start with zeros. -/
def exponent? (cs : List Char) : Option Int := do
  let (minus, digits) := splitSign cs
  let n ← natural? 10 digits
  return if minus then -n else n

/-- Whether `digits` times ten to `exponent` rounds to a finite 64-bit floating-point number. The
first bound that does not is half a unit in the last place above the largest one. -/
def isFinite (digits : List Char) (exponent : Int) : Bool :=
  let significant := digits.dropWhile (· = '0')
  let magnitude := significant.length + exponent
  let n := digitsValue 10 significant
  let bound := Nat.pow 2 1024 - Nat.pow 2 970
  -- far from the bound the size decides; near it the numbers are compared exactly
  if significant.isEmpty || magnitude < 300 then true
  else if magnitude > 320 then false
  else if exponent ≥ 0 then n * Nat.pow 10 exponent.toNat < bound
  else n < bound * Nat.pow 10 (-exponent).toNat

/-- Whether characters spell a finite number, which may have a fraction and an exponent. -/
def isDecimalFraction (cs : List Char) : Bool :=
  let mantissa := cs.takeWhile fun c => c ≠ 'e' ∧ c ≠ 'E'
  let whole := mantissa.takeWhile (· ≠ '.')
  let fraction? := match mantissa.dropWhile (· ≠ '.') with
    | [] => some []
    | _ :: digits => digitGroups Char.isDigit false digits
  let exponentPart? := match cs.drop mantissa.length with
    | [] => some 0
    | _ :: exponent => exponent? exponent
  match decimalDigits? whole, fraction?, exponentPart? with
  | some whole, some fraction, some exponent =>
    isFinite (whole ++ fraction) (exponent - fraction.length)
  | _, _, _ => false

/-- Whether characters spell a number that is not an integer. -/
def isFloat (cs : List Char) : Bool :=
  let digits := (splitSign cs).2
  digits = "inf".toList || digits = "nan".toList ||
    (digits.any (fun c => c = '.' || c = 'e' || c = 'E') && isDecimalFraction digits)

end SelfTypes.Toml
