import Mcfunction.Diagnostic.ParseError
import Mcfunction.Scan.Comment
import Mcfunction.Scan.Word

/-!
# Recognizers at Byte Offsets

What stands at a byte offset of a text. A recognizer that is asked at an offset answers with an
offset. Offsets past the end of the text are asked like the end. At an offset inside a character
nothing is recognized but a string that a byte of the character opens.
-/

namespace Mcfunction.Lookup

/-- The byte at an offset. -/
def byte? (text : String) (offset : Nat) : Option UInt8 :=
  text.toUTF8[offset]?

/-- Whether an offset lies between two characters of the text, or at one of its ends. -/
def isBoundary (text : String) (offset : Nat) : Bool :=
  (text.pos? ⟨offset⟩).isSome

/-- The offsets between two characters of the text and at its ends, in order. -/
def boundaries (text : String) : List Nat :=
  (List.range (text.utf8ByteSize + 1)).filter (isBoundary text)

/-- The character that starts at an offset. -/
def char? (text : String) (offset : Nat) : Option Char :=
  if isBoundary text offset then (Cursor.atOffset text offset).peek else none

/-- The offset past the character that starts at an offset, or else the end of the text. -/
def charEnd (text : String) (offset : Nat) : Nat :=
  match char? text offset with
  | some c => offset + c.utf8Size
  | none => text.utf8ByteSize

/-- Whether a piece of text stands at an offset. -/
def holds (text : String) (offset : Nat) (piece : String) : Bool :=
  if piece.isEmpty then offset ≤ text.utf8ByteSize
  else isBoundary text offset && piece.toList.isPrefixOf (Cursor.atOffset text offset).rest

/-- The answer at an offset of a recognizer that only tests. -/
def test (recognizer : List Char → Bool) (text : String) (offset : Nat) : Bool :=
  recognizer (Cursor.atOffset text offset).rest

/-- The offset past what a recognizer takes at an offset. -/
def skip (recognizer : List Char → Nat) (text : String) (offset : Nat) : Nat :=
  let cursor := Cursor.atOffset text offset
  cursor.offsetAfter (recognizer cursor.rest)

/-- The offset past what a recognizer finds at an offset, if it finds anything. -/
def find? (recognizer : List Char → Option Nat) (text : String) (offset : Nat) : Option Nat :=
  let cursor := Cursor.atOffset text offset
  (recognizer cursor.rest).map cursor.offsetAfter

/-- The offset past a number at an offset, with the number's type letter. -/
def suffixedNumber? (text : String) (offset : Nat) : Option (Nat × Option Char) :=
  let cursor := Cursor.atOffset text offset
  (Scan.suffixedNumber cursor.rest).map fun (count, suffix) => (cursor.offsetAfter count, suffix)

/-- The spans of three coordinate parts at an offset. -/
def coordinates? (text : String) (offset : Nat) : Option (Triple Span) :=
  let cursor := Cursor.atOffset text offset
  (Scan.coordinates cursor.rest).map fun parts =>
    parts.map fun (start, stop) => ⟨cursor.offsetAfter start, cursor.offsetAfter stop⟩

/-- The offset past a comment's tag at an offset, with the tag's mark. -/
def commentTag (text : String) (offset : Nat) : Nat × Option Char :=
  let cursor := Cursor.atOffset text offset
  let (count, mark) := Scan.commentTag cursor.rest
  (cursor.offsetAfter count, mark)

/-- The offset past a fragment at an offset. From inside a character a fragment takes all that
is left. -/
def fragment? (inKey : Bool) (text : String) (offset : Nat) : Option Nat :=
  if offset ≤ text.utf8ByteSize && !isBoundary text offset then some text.utf8ByteSize
  else find? (Scan.fragment inKey) text offset

/-- The bytes after an offset that belong to the character of the byte at the offset. -/
def innerBytes (text : String) (offset : Nat) : List UInt8 :=
  (text.toUTF8.toList.drop (offset + 1)).takeWhile fun byte => byte &&& 0xc0 == 0x80

/-- The offset past a string that a byte opens and the next byte of the same value closes, and
whether it holds an interpolation. This is how a character of several bytes, or a part of one,
quotes. -/
def quotedByByte (byte : UInt8) (text : String) (offset : Nat) :
    Except ParseError (Nat × Bool) :=
  match (innerBytes text offset).findIdx? (· == byte) with
  | some index => .ok (offset + index + 2, false)
  | none =>
    let cursor := Cursor.atOffset text offset
    let closes (c : Char) : Bool := (String.utf8EncodeChar c).contains byte
    match Scan.quotedFrom closes 1 false 0 cursor.rest.tail with
    | .ok quoted =>
      let closer := cursor.advance quoted.before
      let index := (closer.peek.map fun c => (String.utf8EncodeChar c).idxOf byte).getD 0
      .ok (closer.offset + index + 1, quoted.interpolated)
    | .error error => .error (error.at cursor)

/-- The offset past a quoted string at an offset, and whether it holds an interpolation. -/
def quoted (text : String) (offset : Nat) : Except ParseError (Nat × Bool) :=
  match (byte? text offset).filter (0x80 ≤ ·) with
  | some byte => quotedByByte byte text offset
  | none =>
    let cursor := Cursor.atOffset text offset
    match Scan.quoted cursor.rest with
    | .ok quoted => .ok (cursor.offsetAfter quoted.count, quoted.interpolated)
    | .error error => .error (error.at cursor)

/-- The offset past an interpolation at an offset. -/
def interpolation (text : String) (offset : Nat) : Except ParseError Nat :=
  let cursor := Cursor.atOffset text offset
  match Scan.interpolation cursor.rest with
  | .ok count => .ok (cursor.offsetAfter count)
  | .error error => .error (error.at cursor)

/-- The offset `stop` moved back over blanks, but not before `start`. -/
def trimEnd (text : String) (start : Nat) : Nat → Nat
  | 0 => 0
  | stop + 1 =>
    if start ≤ stop && (byte? text stop).any fun byte => Scan.isBlank (Char.ofNat byte.toNat) then
      trimEnd text start stop
    else stop + 1

end Mcfunction.Lookup
