/-!
# Double Precision Numbers

A `Binary64` is a binary floating-point number of 64 bits: a sign, eleven bits of exponent and
fifty-two of fraction. It is kept as its bit pattern, so two numbers are the same exactly when
they print and compare alike in every detail, the sign of zero included.

`ofRatio` rounds an exact quotient to the nearest such number, by integer arithmetic alone.
-/

namespace Mcfunction

/-- A double precision number, as its bit pattern. -/
structure Binary64 where
  /-- Sign, exponent and fraction, from the top. -/
  bits : UInt64
deriving DecidableEq

/-- The integer nearest to `num / den`; a tie goes to the even one. -/
def roundHalfEven (num den : Nat) : Nat :=
  let quotient := num / den
  let twice := 2 * (num % den)
  if twice < den then quotient
  else if den < twice then quotient + 1
  else quotient + quotient % 2

namespace Binary64

/-- The number with a given sign and the given bits below it. -/
def ofMagnitude (negative : Bool) (magnitude : Nat) : Binary64 :=
  ⟨UInt64.ofNat (if negative then Nat.pow 2 63 + magnitude else magnitude)⟩

/-- All bits but the sign, as an integer. Magnitudes are ordered as the numbers are. -/
def magnitude (x : Binary64) : Nat :=
  x.bits.toNat % Nat.pow 2 63

/-- Whether the sign bit is set. -/
def isNegative (x : Binary64) : Bool :=
  Nat.pow 2 63 ≤ x.bits.toNat

/-- The biased exponent. -/
def exponentField (x : Binary64) : Nat :=
  x.magnitude / Nat.pow 2 52

/-- The bits of the fraction. -/
def fractionField (x : Binary64) : Nat :=
  x.magnitude % Nat.pow 2 52

/-- Whether the number is neither an infinity nor no number at all. -/
def isFinite (x : Binary64) : Bool :=
  x.exponentField < 2047

/-- The magnitude of infinity, beyond that of every finite number. -/
def infiniteMagnitude : Nat :=
  2047 * Nat.pow 2 52

/-- Infinity with a sign. -/
def infinity (negative : Bool) : Binary64 :=
  ofMagnitude negative infiniteMagnitude

/-- The result of an operation that has none. -/
def nan : Binary64 :=
  ⟨0x7ff8000000000000⟩

/-- Zero with a sign. -/
def zero (negative : Bool) : Binary64 :=
  ofMagnitude negative 0

/-- The integer part of a finite number in units of its last place. -/
def significand (x : Binary64) : Nat :=
  if x.exponentField = 0 then x.fractionField else Nat.pow 2 52 + x.fractionField

/-- The last place of a finite number: its unit is `2 ^ (place - 1074)`. -/
def place (x : Binary64) : Nat :=
  x.exponentField - 1

/-- The finite number or infinity nearest to `num / den`; a tie goes to the even one.

Measured in the smallest positive number, `2 ^ (-1074)`, the quotient is
`num * 2 ^ 1074 / den`. Its last place is the one that leaves fifty-three bits before the
point, or the lowest there is, and the magnitude counts the numbers up to the rounded one. -/
def ofRatio (negative : Bool) (num den : Nat) : Binary64 :=
  let units := num * Nat.pow 2 1074
  let place := (units / den).log2 - 52
  let magnitude := place * Nat.pow 2 52 + roundHalfEven units (den * Nat.pow 2 place)
  ofMagnitude negative (min magnitude infiniteMagnitude)

end Binary64

end Mcfunction
