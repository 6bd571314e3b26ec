/-!
# Cursors

A `Cursor` is a place between two characters of a source text: the byte offset of the place
and the characters that follow it. Recognizers look only at those characters and answer with
a number of characters, so what they find depends neither on where the text stands in its
file nor on what precedes it; `Cursor.advance` turns the count back into an offset. Since a
cursor moves by whole characters, every offset it reaches lies between two characters.
-/

namespace Mcfunction

/-- A place in a source text. -/
structure Cursor where
  /-- Byte offset of the place. -/
  offset : Nat
  /-- The characters that follow. -/
  rest : List Char
deriving DecidableEq

/-- The number of bytes that `chars` take in UTF-8. -/
def byteWidth : List Char → Nat
  | [] => 0
  | c :: chars => c.utf8Size + byteWidth chars

namespace Cursor

/-- The place before the first character of `text`. -/
def start (text : String) : Cursor :=
  ⟨0, text.toList⟩

/-- The place `count` characters further on. Past the end of the text each step counts as
one byte. -/
def advance : Nat → Cursor → Cursor
  | 0, cursor => cursor
  | count + 1, ⟨offset, []⟩ => advance count ⟨offset + 1, []⟩
  | count + 1, ⟨offset, c :: rest⟩ => advance count ⟨offset + c.utf8Size, rest⟩

/-- The place `count` characters further on, if there are so many. -/
def advance? : Nat → Cursor → Option Cursor
  | 0, cursor => some cursor
  | _ + 1, ⟨_, []⟩ => none
  | count + 1, ⟨offset, c :: rest⟩ => advance? count ⟨offset + c.utf8Size, rest⟩

/-- Stands for a byte inside a character when a text is cut there. -/
def innerByte : Char :=
  '\x01'

/-- The place at the offset `target`, when `rest` starts at the offset `offset` before it. A
character that holds the place leaves as many bytes as there are of it past the place. -/
def locate (target offset : Nat) : List Char → Cursor
  | [] => ⟨target, []⟩
  | c :: rest =>
    if target ≤ offset then ⟨target, c :: rest⟩
    else if target < offset + c.utf8Size then
      ⟨target, List.replicate (offset + c.utf8Size - target) innerByte ++ rest⟩
    else locate target (offset + c.utf8Size) rest

/-- The place at a byte offset of a text, or past its end. -/
def atOffset (text : String) (offset : Nat) : Cursor :=
  locate offset 0 text.toList

/-- The byte offset `count` characters further on. -/
def offsetAfter (cursor : Cursor) (count : Nat) : Nat :=
  (cursor.advance count).offset

/-- The place at the offset `target`, when `rest` starts at `offset`; nothing if `target` lies
before `offset`, past the end or inside a character. -/
def seek? (target offset : Nat) : List Char → Option Cursor
  | [] => if target = offset then some ⟨offset, []⟩ else none
  | c :: rest =>
    if target = offset then some ⟨offset, c :: rest⟩
    else if target < offset then none
    else seek? target (offset + c.utf8Size) rest

/-- The place at the offset `target`, if it is one from `cursor` on. -/
def at? (cursor : Cursor) (target : Nat) : Option Cursor :=
  seek? target cursor.offset cursor.rest

/-- The characters before the offset `stop`, when `rest` starts at `offset`; nothing if `stop`
is not the offset of a place from there on. -/
def cut? (stop offset : Nat) : List Char → Option (List Char)
  | [] => if stop = offset then some [] else none
  | c :: rest =>
    if stop = offset then some []
    else if stop < offset then none
    else (cut? stop (offset + c.utf8Size) rest).map (c :: ·)

/-- The characters between two offsets, if both are offsets of places from `cursor` on and in
order. -/
def slice? (cursor : Cursor) (start stop : Nat) : Option (List Char) :=
  (cursor.at? start).bind fun place => cut? stop place.offset place.rest

/-- The character at the cursor. -/
def peek (cursor : Cursor) : Option Char :=
  cursor.rest.head?

/-- Offset just past the character at the cursor, or the cursor's own at the end. -/
def charEnd (cursor : Cursor) : Nat :=
  match cursor.rest with
  | [] => cursor.offset
  | c :: _ => cursor.offset + c.utf8Size

/-- The next `count` characters as text. -/
def text (cursor : Cursor) (count : Nat) : String :=
  String.ofList (cursor.rest.take count)

end Cursor

end Mcfunction
