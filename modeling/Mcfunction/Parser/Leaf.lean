import Mcfunction.Binary64.Decimal
import Mcfunction.Parser.Recovery
import Mcfunction.Scan.Word
import Mcfunction.Tree.Leaf

/-!
# Parsing Leaves

Strings, numbers, resource locations, interpolations, text mixed with them, and coordinates.
Each parser stands at the first character of its leaf and stops right after the last.
-/

namespace Mcfunction.Parser

/-- Moves over `count` characters and gives their text with its place. -/
def textRun (count : Nat) : Parser TextRun := do
  let start ← here
  let text ← sliceText start start.offset (start.offsetAfter count)
  take count
  return ⟨text, ← spanFrom start.offset⟩

/-- The next `count` characters as a bare string. -/
def bareString (count : Nat) : Parser StringLiteral := do
  let run ← textRun count
  return ⟨run.text, .bare, run.span⟩

/-- The kind of quote at the cursor. -/
def quoteAt (cursor : Cursor) : Quote :=
  if cursor.peek == some '\'' then .single else .double

/-- A quoted string. -/
def quotedString : Parser StringLiteral := do
  let start ← here
  let quoted ← scan Scan.quoted
  take quoted.count
  let close ← trust (offsetBefore (← here).offset 1)
  let text ← sliceText start (start.offset + 1) close
  return ⟨text, quoteAt start, ← spanFrom start.offset⟩

/-- A number of `count` characters, its type letter included. -/
def number (count : Nat) (suffix : Option Char) : Parser Number := do
  let start ← here
  let run ← textRun count
  let digitsEnd ←
    if suffix.isSome then trust (offsetBefore run.span.stop 1) else pure run.span.stop
  let digits ← slice start start.offset digitsEnd
  return ⟨(Binary64.ofChars? digits).getD .nan, suffix, run.text, run.span⟩

/-- A resource location with a namespace of `space` characters and a path of `path`. -/
def resourceLocation (space path : Nat) : Parser ResourceLocation := do
  let start ← here
  let colon := start.offsetAfter space
  take (space + 1 + path)
  let stop := (← here).offset
  let spaceText ← sliceText start start.offset colon
  let pathText ← sliceText start (colon + 1) stop
  return ⟨spaceText, pathText, ← spanFrom start.offset⟩

/-! ### Interpolations -/

/-- An interpolation. -/
def interpolation : Parser Interpolation := do
  let start ← here
  let count ← scan Scan.interpolation
  take count
  let close ← trust (offsetBefore (← here).offset 1)
  let expression ← sliceText start (start.offset + 2) close
  return ⟨expression, ← spanFrom start.offset⟩

/-- The interpolations and fragments of an argument outside quotes. -/
def bareFragments (inKey : Bool) : Nat → Parser (List Fragment)
  | 0 => breakOff .stalled
  | fuel + 1 => do
    let cursor ← here
    if Scan.startsInterpolation cursor.rest then
      let piece ← interpolation
      return .interpolation piece :: (← bareFragments inKey fuel)
    else
      match Scan.fragment inKey cursor.rest with
      | none => return []
      | some count =>
        let run ← textRun count
        return .literal run :: (← bareFragments inKey fuel)

/-- The next piece of text inside quotes: up to an interpolation, with escapes taken whole. -/
def quotedTextStep (chars : List Char) : Nat :=
  match chars with
  | [] => 0
  | '\\' :: _ => 2
  | _ => if Scan.startsInterpolation chars then 0 else 1

/-- The interpolations and the text between them of a quoted argument of which `left`
characters are left before the closing quote. -/
def quotedFragments : Nat → Nat → Parser (List Fragment)
  | 0, _ => breakOff .stalled
  | fuel + 1, left => do
    if left = 0 then return []
    else
      let cursor ← here
      match Scan.repeated quotedTextStep 0 (cursor.rest.take left) with
      | 0 =>
        let piece ← interpolation
        let count := cursor.rest.length - (← here).rest.length
        return .interpolation piece :: (← quotedFragments fuel (left - count))
      | count + 1 =>
        let run ← textRun (count + 1)
        return .quoted run :: (← quotedFragments fuel (left - (count + 1)))

/-- Text mixed with interpolations, where `Scan.startsInterpolated` holds. -/
def interpolated (inKey : Bool) : Parser Interpolated := do
  let start ← here
  if Scan.startsQuoted start.rest then
    let quoted ← scan Scan.quoted
    take 1
    let fragments ← quotedFragments (quoted.before + 1) (quoted.before - 1)
    moveTo (start.advance quoted.count)
    return ⟨fragments, quoteAt start, ← spanFrom start.offset⟩
  else
    let fragments ← bareFragments inKey (start.rest.length + 1)
    return ⟨fragments, .bare, ← spanFrom start.offset⟩

/-! ### Coordinates -/

/-- The coordinate part that `chars` write at `span`. -/
def coordinatePart (chars : List Char) (span : Span) : CoordinatePart :=
  match chars with
  | '~' :: offset => .relative (Binary64.ofChars? offset) span
  | '^' :: offset => .localTo (Binary64.ofChars? offset) span
  | _ =>
    let suffix := (Scan.suffixedNumber chars).bind Prod.snd
    let digits := if suffix.isSome then chars.dropLast else chars
    .absolute ((Binary64.ofChars? digits).getD .nan) suffix span

/-- The coordinate part between two counts of characters from `start`. -/
def coordinatePartAt (start : Cursor) (range : Nat × Nat) : Parser CoordinatePart := do
  let first := start.offsetAfter range.1
  let stop := start.offsetAfter range.2
  let place ← span first stop
  return coordinatePart (← slice start first stop) place

/-- A coordinate triple. -/
def coordinates : Parser Coordinates := do
  let start ← here
  match Scan.coordinates start.rest with
  | none =>
    failAt .malformedCoordinates start.offset
      (start.offsetAfter (Scan.coordinateRun start.rest))
  | some ranges =>
    let x ← coordinatePartAt start ranges.x
    let y ← coordinatePartAt start ranges.y
    let z ← coordinatePartAt start ranges.z
    take ranges.z.2
    return ⟨⟨x, y, z⟩, ← spanFrom start.offset⟩

end Mcfunction.Parser
