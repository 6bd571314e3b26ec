import Mcfunction.Binary64.Basic

/-!
# Shortest Decimals

The decimal that stands for a number in text: of the decimals that round to the number, those
with the fewest digits, and of these the nearest to it.

The reals that round to a number form an interval around it, which holds its ends exactly when
the significand is even. For one digit, two digits and so on, the two neighbours of the number
on the grid of decimals with so many digits are tried; the first grid with a neighbour in the
interval decides. Seventeen digits always suffice.
-/

namespace Mcfunction

/-- A positive decimal: an integer times a power of ten. -/
structure ScaledDigits where
  /-- The digits, read as an integer. -/
  digits : Nat
  /-- The power of ten. -/
  exponent : Int
deriving DecidableEq

/-- The reals that round to a positive number, as quotients over one denominator. -/
structure RoundingInterval where
  /-- Numerator of the lower end. -/
  low : Nat
  /-- Numerator of the number itself. -/
  value : Nat
  /-- Numerator of the upper end. -/
  high : Nat
  /-- The denominator. -/
  den : Nat
  /-- Whether the ends belong to the interval. -/
  closed : Bool

namespace RoundingInterval

/-- The interval of a positive finite number. The lower end is nearer when the number is the
first of its exponent, since the numbers below are twice as dense. -/
def of (x : Binary64) : RoundingInterval :=
  let quarters := 4 * x.significand
  let first := x.fractionField = 0 ∧ 1 < x.exponentField
  let up := Nat.pow 2 (x.place - 1076)
  { low := (quarters - if first then 1 else 2) * up
    value := quarters * up
    high := (quarters + 2) * up
    den := Nat.pow 2 (1076 - x.place)
    closed := x.significand % 2 = 0 }

/-- Whether the quotient `num / den` lies in the interval. -/
def contains (interval : RoundingInterval) (num den : Nat) : Bool :=
  let below := interval.low * den
  let above := interval.high * den
  let here := num * interval.den
  if interval.closed then below ≤ here && here ≤ above else below < here && here < above

/-- A decimal as a quotient. -/
def quotient (decimal : ScaledDigits) : Nat × Nat :=
  if 0 ≤ decimal.exponent then (decimal.digits * Nat.pow 10 decimal.exponent.toNat, 1)
  else (decimal.digits, Nat.pow 10 (-decimal.exponent).toNat)

/-- Whether a decimal lies in the interval. -/
def containsDecimal (interval : RoundingInterval) (decimal : ScaledDigits) : Bool :=
  let (num, den) := quotient decimal
  interval.contains num den

/-- The number in units of `10 ^ exponent`, as a quotient. -/
def inUnits (interval : RoundingInterval) (exponent : Int) : Nat × Nat :=
  if 0 ≤ exponent then (interval.value, interval.den * Nat.pow 10 exponent.toNat)
  else (interval.value * Nat.pow 10 (-exponent).toNat, interval.den)

/-- The nearer neighbour of the number on the grid of multiples of `10 ^ exponent` that lies in
the interval; a tie goes to the even one. -/
def neighbour? (interval : RoundingInterval) (exponent : Int) : Option ScaledDigits :=
  let (num, den) := interval.inUnits exponent
  let below : ScaledDigits := ⟨num / den, exponent⟩
  let above : ScaledDigits := ⟨num / den + 1, exponent⟩
  match interval.containsDecimal below, interval.containsDecimal above with
  | true, true => some ⟨roundHalfEven num den, exponent⟩
  | true, false => some below
  | false, true => some above
  | false, false => none

/-- The number of decimal digits before the point of a quotient of at least one. -/
def wholeDigits (num den : Nat) : Nat :=
  (Nat.toDigits 10 (num / den)).length

/-- How many times the quotient must be multiplied by ten to reach one, `fuel` times at most. -/
def timesToOne (fuel num den : Nat) : Nat :=
  match fuel with
  | 0 => 0
  | fuel + 1 => if den ≤ num then 0 else timesToOne fuel (10 * num) den + 1

/-- The power of ten of the number's first digit. -/
def leadingExponent (interval : RoundingInterval) : Int :=
  if interval.den ≤ interval.value then wholeDigits interval.value interval.den - 1
  else -(timesToOne 400 interval.value interval.den : Int)

/-- The first neighbour in the interval when `left` grids are still to be tried, the last of
them with seventeen digits. -/
def search (interval : RoundingInterval) (leading : Int) : Nat → ScaledDigits
  | 0 => ⟨interval.value / interval.den, 0⟩
  | left + 1 =>
    match interval.neighbour? (leading - (16 - left)) with
    | some decimal => decimal
    | none => search interval leading left

end RoundingInterval

/-- A decimal without zeros at its end, `fuel` of them at most. -/
def ScaledDigits.strip (decimal : ScaledDigits) : Nat → ScaledDigits
  | 0 => decimal
  | fuel + 1 =>
    if decimal.digits % 10 = 0 then
      ScaledDigits.strip ⟨decimal.digits / 10, decimal.exponent + 1⟩ fuel
    else decimal

/-- The shortest decimal that reads back as a positive finite number. -/
def Binary64.shortest (x : Binary64) : ScaledDigits :=
  let interval := RoundingInterval.of x
  (interval.search interval.leadingExponent 17).strip 17

/-- Where the text of a decimal changes from positional to scientific notation. -/
structure DecimalLayout where
  /-- The lowest power of ten of a first digit that is written positionally. -/
  lowest : Int
  /-- The highest power of ten of a first digit that is written positionally. -/
  highest : Int

namespace DecimalLayout

/-- The text of a positive decimal. A positional text has a point and a digit on each side of
it; in a scientific text the exponent has a sign. -/
def render (layout : DecimalLayout) (decimal : ScaledDigits) : List Char :=
  let digits := Nat.toDigits 10 decimal.digits
  let leading := decimal.exponent + digits.length - 1
  if layout.lowest ≤ leading ∧ leading ≤ layout.highest then
    if 0 ≤ decimal.exponent then
      digits ++ List.replicate decimal.exponent.toNat '0' ++ ['.', '0']
    else if 0 ≤ leading then
      digits.take (leading.toNat + 1) ++ '.' :: digits.drop (leading.toNat + 1)
    else '0' :: '.' :: List.replicate (-leading - 1).toNat '0' ++ digits
  else
    let fraction := if digits.length = 1 then [] else '.' :: digits.drop 1
    let sign := if leading < 0 then '-' else '+'
    digits.take 1 ++ fraction ++ 'e' :: sign :: Nat.toDigits 10 leading.natAbs

/-- The text of a finite number: its shortest decimal behind its sign. -/
def renderNumber (layout : DecimalLayout) (x : Binary64) : String :=
  let sign := if x.isNegative then ['-'] else []
  let digits := if x.magnitude = 0 then ['0', '.', '0'] else layout.render x.shortest
  String.ofList (sign ++ digits)

end DecimalLayout

end Mcfunction
