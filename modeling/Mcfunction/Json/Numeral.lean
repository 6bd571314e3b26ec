import Mcfunction.Binary64.Decimal
import Mcfunction.Json.Basic

/-!
# JSON Numerals

How a JSON numeral becomes a number. A numeral without point and exponent that fits into 64
bits, signed or not, is an integer. Any other is a double precision number, computed in double
precision: the digits are read as long as they fit into 64 bits and rounded, and the result is
multiplied or divided by a rounded power of ten. So its last place may differ from that of the
number nearest to the numeral. A numeral beyond the largest number is well-formed, but has no
value.
-/

namespace Mcfunction

namespace Binary64

/-- The product of two positive finite numbers, rounded. -/
def mul (x y : Binary64) : Binary64 :=
  ofRatio false (x.significand * y.significand * Nat.pow 2 (x.place + y.place)) (Nat.pow 2 2148)

/-- The quotient of two positive finite numbers, rounded. -/
def div (x y : Binary64) : Binary64 :=
  ofRatio false (x.significand * Nat.pow 2 x.place) (y.significand * Nat.pow 2 y.place)

/-- The power of ten nearest to `10 ^ exponent`. -/
def powerOfTen (exponent : Nat) : Binary64 :=
  ofRatio false (Nat.pow 10 exponent) 1

/-- A non-negative number divided by a power of ten, by `1e308` at a time and `turns` times at
most. -/
def divPowerOfTen (x : Binary64) (exponent : Nat) : Nat → Binary64
  | 0 => x
  | turns + 1 =>
    if exponent ≤ 308 then x.div (powerOfTen exponent)
    else if x.magnitude = 0 then x
    else divPowerOfTen (x.div (powerOfTen 308)) (exponent - 308) turns

/-- A non-negative integer times a power of ten, computed in double precision. -/
def ofScaled? (significand : Nat) (exponent : Int) : Option Binary64 :=
  let x := ofRatio false significand 1
  if exponent < 0 then some (x.divPowerOfTen (-exponent).toNat 8)
  else if x.magnitude = 0 then some x
  else if 308 < exponent then none
  else
    let product := x.mul (powerOfTen exponent.toNat)
    if product.isFinite then some product else none

end Binary64

namespace Json

/-- Reads digits as long as the integer fits into 64 bits, and counts them. -/
def absorb (significand : Nat) : List Char → Nat × Nat
  | [] => (significand, 0)
  | c :: digits =>
    let next := 10 * significand + Decimal.digitValue c
    if next < Nat.pow 2 64 then
      let (significand, count) := absorb next digits
      (significand, count + 1)
    else (significand, 0)

/-- The exponent at the front of a text, if there is one, and the text after it; nothing if a
letter is there without digits. -/
def exponent? (chars : List Char) : Option (Option Int × List Char) :=
  match chars with
  | [] => some (none, [])
  | c :: tail =>
    if c == 'e' || c == 'E' then
      let (negative, tail) :=
        match tail with
        | '-' :: tail => (true, tail)
        | '+' :: tail => (false, tail)
        | tail => (false, tail)
      let digits := tail.takeWhile Char.isDigit
      let value : Int := Decimal.readDigits 0 digits
      if digits.isEmpty then none
      else some (some (if negative then -value else value), tail.dropWhile Char.isDigit)
    else some (none, chars)

/-- The double precision number of a significand, the power of ten that its digits ask for, and
the exponent that the numeral adds. Exponents of more than 32 bits are not added. -/
def scaled? (negative : Bool) (significand : Nat) (place exponent : Int) : Option Json :=
  let magnitude? :=
    if exponent.natAbs < Nat.pow 2 31 then Binary64.ofScaled? significand (place + exponent)
    else if significand ≠ 0 ∧ 0 < exponent then none
    else some (.zero false)
  magnitude?.map fun x => .double (.ofMagnitude negative x.magnitude)

/-- The integer of a sign and a significand that fits into 64 bits. Minus zero and integers
below the signed range are double precision numbers. -/
def integerOf (negative : Bool) (significand : Nat) : Json :=
  if !negative then .integer significand
  else if significand = 0 ∨ Nat.pow 2 63 < significand then .double (.ofRatio true significand 1)
  else .integer (-significand)

/-- The numeral at the front of a text, with its value if it has one, and the text after it. -/
def numeral? (chars : List Char) : Option (Option Json × List Char) := do
  let (negative, chars) :=
    match chars with
    | '-' :: chars => (true, chars)
    | chars => (false, chars)
  let whole := chars.takeWhile Char.isDigit
  let chars := chars.dropWhile Char.isDigit
  if whole.isEmpty || (whole.head? == some '0' && 1 < whole.length) then none
  else
    let (significand, count) := absorb 0 whole
    let place : Int := (whole.length - count : Nat)
    match chars with
    | '.' :: chars =>
      let fraction := chars.takeWhile Char.isDigit
      if fraction.isEmpty then none
      else
        let (significand, count) := absorb significand fraction
        let (exponent, chars) ← exponent? (chars.dropWhile Char.isDigit)
        return (scaled? negative significand (place - count) (exponent.getD 0), chars)
    | chars =>
      let (exponent, chars) ← exponent? chars
      if exponent.isNone && place == 0 then return (some (integerOf negative significand), chars)
      else return (scaled? negative significand place (exponent.getD 0), chars)

end Json

end Mcfunction
