import Mcfunction.Binary64.Basic

/-!
# Decimals

A `Decimal` is a signed integer times a power of ten, as a decimal numeral writes it. Reading
a numeral keeps every digit; `Decimal.toBinary64` then rounds once, to the nearest number.
-/

namespace Mcfunction

/-- A sign, an integer and a power of ten. -/
structure Decimal where
  /-- Whether there is a minus sign. -/
  negative : Bool
  /-- The digits, read as an integer. -/
  digits : Nat
  /-- The power of ten. -/
  exponent : Int
deriving DecidableEq

namespace Decimal

/-- The value of a digit. -/
def digitValue (c : Char) : Nat :=
  c.toNat - '0'.toNat

/-- The integer that a row of digits writes, after the digits of `read`. -/
def readDigits (read : Nat) (digits : List Char) : Nat :=
  digits.foldl (fun value c => 10 * value + digitValue c) read

/-- The exponent that ends a numeral: a letter, an optional sign and digits. -/
def readExponent (chars : List Char) : Option Int :=
  match chars with
  | [] => some 0
  | c :: chars =>
    if c == 'e' || c == 'E' then
      let (negative, digits) :=
        match chars with
        | '-' :: digits => (true, digits)
        | '+' :: digits => (false, digits)
        | digits => (false, digits)
      if digits.isEmpty || !digits.all Char.isDigit then none
      else if negative then some (-(readDigits 0 digits : Int))
      else some (readDigits 0 digits : Int)
    else none

/-- The decimal that a numeral writes: an optional minus sign, digits with an optional point
before, among or after them, an optional exponent. -/
def ofChars? (chars : List Char) : Option Decimal :=
  let (negative, chars) :=
    match chars with
    | '-' :: chars => (true, chars)
    | chars => (false, chars)
  let whole := chars.takeWhile Char.isDigit
  let (fraction, chars) :=
    match chars.dropWhile Char.isDigit with
    | '.' :: chars => (chars.takeWhile Char.isDigit, chars.dropWhile Char.isDigit)
    | chars => ([], chars)
  if whole.isEmpty && fraction.isEmpty then none
  else
    (readExponent chars).map fun exponent =>
      ⟨negative, readDigits (readDigits 0 whole) fraction, exponent - fraction.length⟩

/-- The number nearest to a decimal. Exponents that settle the result whatever the digits are
decided without computing the power. -/
def toBinary64 (decimal : Decimal) : Binary64 :=
  if decimal.digits = 0 then .zero decimal.negative
  else if 400 < decimal.exponent then .infinity decimal.negative
  else if decimal.exponent < -(400 + decimal.digits.log2 : Int) then .zero decimal.negative
  else if 0 ≤ decimal.exponent then
    .ofRatio decimal.negative (decimal.digits * Nat.pow 10 decimal.exponent.toNat) 1
  else .ofRatio decimal.negative decimal.digits (Nat.pow 10 (-decimal.exponent).toNat)

end Decimal

/-- The number nearest to what a numeral writes, if it is one. -/
def Binary64.ofChars? (chars : List Char) : Option Binary64 :=
  (Decimal.ofChars? chars).map Decimal.toBinary64

end Mcfunction
