import Mcfunction.Scan.Basic

/-!
# Numbers and Coordinates

A number is an optional minus sign, a decimal mantissa (`12`, `1.5` or `.5`) and an optional
exponent; a type letter may follow it directly. A coordinate part is such a number, or a `~`
or `^` with an optional signed mantissa. Each recognizer takes the longest text it can, and
leaves out a point, an exponent or a sign that no digit follows.
-/

namespace Mcfunction

/-- One value for each axis. -/
structure Triple (α : Type) where
  /-- The first part. -/
  x : α
  /-- The second part. -/
  y : α
  /-- The third part. -/
  z : α
deriving DecidableEq

namespace Triple

/-- The same function on each axis. -/
def map {α β : Type} (f : α → β) (triple : Triple α) : Triple β :=
  ⟨f triple.x, f triple.y, f triple.z⟩

/-- The three parts in order. -/
def toList {α : Type} (triple : Triple α) : List α :=
  [triple.x, triple.y, triple.z]

end Triple

namespace Scan

/-- An unsigned mantissa. -/
def decimal (chars : List Char) : Option Nat :=
  let whole := run Char.isDigit chars
  let fraction :=
    match chars.drop whole with
    | '.' :: digits => run Char.isDigit digits
    | _ => 0
  if 0 < fraction then some (whole + 1 + fraction)
  else if 0 < whole then some whole
  else none

/-- The minus sign at the front, if there is one. -/
def minus (chars : List Char) : Nat :=
  match chars with
  | '-' :: _ => 1
  | _ => 0

/-- The sign of an exponent, if there is one. -/
def exponentSign (chars : List Char) : Nat :=
  match chars with
  | '+' :: _ => 1
  | '-' :: _ => 1
  | _ => 0

/-- The exponent at the front: nothing unless a digit follows the letter and its sign. -/
def exponent (chars : List Char) : Nat :=
  match chars with
  | c :: chars =>
    if c == 'e' || c == 'E' then
      let sign := exponentSign chars
      match run Char.isDigit (chars.drop sign) with
      | 0 => 0
      | digits + 1 => 1 + sign + (digits + 1)
    else 0
  | [] => 0

/-- A number without its type letter. -/
def number (chars : List Char) : Option Nat :=
  let sign := minus chars
  match decimal (chars.drop sign) with
  | none => none
  | some mantissa => some (sign + mantissa + exponent (chars.drop (sign + mantissa)))

/-- A number with its type letter, and the letter. -/
def suffixedNumber (chars : List Char) : Option (Nat × Option Char) :=
  match number chars with
  | none => none
  | some count =>
    match chars.drop count with
    | c :: _ => if isSuffixLetter c then some (count + 1, some c) else some (count, none)
    | [] => some (count, none)

/-- One coordinate part. -/
def coordinate (chars : List Char) : Option Nat :=
  match chars with
  | [] => none
  | c :: offset =>
    if c == '~' || c == '^' then
      let sign := minus offset
      match decimal (offset.drop sign) with
      | some mantissa => some (1 + sign + mantissa)
      | none => some 1
    else (suffixedNumber chars).map Prod.fst

/-- Three coordinate parts with blanks between them, as pairs of counts from the front to the
start and to the end of each. No path character may follow the third. -/
def coordinates (chars : List Char) : Option (Triple (Nat × Nat)) := do
  let x ← coordinate chars
  let firstGap ← run? isBlank (chars.drop x)
  let yStart := x + firstGap
  let y ← coordinate (chars.drop yStart)
  let secondGap ← run? isBlank (chars.drop (yStart + y))
  let zStart := yStart + y + secondGap
  let z ← coordinate (chars.drop zStart)
  if (chars.drop (zStart + z)).head?.any isPathChar then none
  else some ⟨(0, x), (yStart, yStart + y), (zStart, zStart + z)⟩

end Scan

end Mcfunction
