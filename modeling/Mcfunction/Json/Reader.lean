import Mcfunction.Json.Lexeme
import Mcfunction.Json.Raw

/-!
# Reading JSON

`Json.Raw.ofText?` reads the value that a text writes, with whitespace around it and nothing
else. The lexemes are taken one by one, and the arrays and objects that are still open are kept
in a list, so that a text may nest as deep as it likes.

`Json.read?` is the value itself, in which arrays and objects nest at most 127 deep, and
`Json.readWithin?` only what counts of it.

This is what `serde_json` documents of its reader with the default features. The grammar is that of
JSON, without comments and trailing commas. A text that nests beyond a recursion limit of 128 is
refused, but a member that is passed over is checked for its form only, however deep it nests. An
integer that fits into 64 bits, signed or not, is kept as an integer, and any other numeral is read
in double precision, not always to the nearest number (that would be `float_roundtrip`). A numeral
beyond the largest number is refused, and so is half of a surrogate pair. Error texts are left out:
nothing is said of why a text is refused.
-/

namespace Mcfunction.Json

/-- An array or object that is still open, with what has been read of it, the last first. -/
inductive Frame where
  /-- An array. -/
  | items (read : List Raw)
  /-- An object before the name of a member. -/
  | members (read : List (Option String × Raw))
  /-- An object after the name of a member. -/
  | member (name : Option String) (read : List (Option String × Raw))

/-- How far a text has been read: what comes next, in which open arrays and objects, the
innermost first. -/
inductive Progress where
  /-- A value. -/
  | atValue (frames : List Frame)
  /-- What an array or object begins with, or its end. -/
  | atFirst (frames : List Frame)
  /-- The name of a member. -/
  | atName (frames : List Frame)
  /-- The colon after a name. -/
  | atColon (frames : List Frame)
  /-- What follows a value that has just been read. -/
  | afterValue (value : Raw) (frames : List Frame)

namespace Progress

/-- A value begins. -/
def enter? (lexeme : Lexeme) (frames : List Frame) : Option Progress :=
  match lexeme with
  | .openArray => some (.atFirst (.items [] :: frames))
  | .openObject => some (.atFirst (.members [] :: frames))
  | .string text => some (.afterValue (.scalar (text.map .string)) frames)
  | .scalar value => some (.afterValue (.scalar value) frames)
  | _ => none

/-- The name of a member is read. -/
def named? (lexeme : Lexeme) (frames : List Frame) : Option Progress :=
  match lexeme, frames with
  | .string name, .members read :: frames => some (.atColon (.member name read :: frames))
  | _, _ => none

/-- A value has been read, and the array or object that holds it goes on or ends. -/
def proceed? (lexeme : Lexeme) (value : Raw) (frames : List Frame) : Option Progress :=
  match lexeme, frames with
  | .comma, .items read :: frames => some (.atValue (.items (value :: read) :: frames))
  | .closeArray, .items read :: frames =>
    some (.afterValue (.array (value :: read).reverse) frames)
  | .comma, .member name read :: frames =>
    some (.atName (.members ((name, value) :: read) :: frames))
  | .closeObject, .member name read :: frames =>
    some (.afterValue (.object ((name, value) :: read).reverse) frames)
  | _, _ => none

/-- One more lexeme. -/
def step? (progress : Progress) (lexeme : Lexeme) : Option Progress :=
  match progress, lexeme with
  | .atValue frames, lexeme => enter? lexeme frames
  | .atFirst (.items _ :: frames), .closeArray => some (.afterValue (.array []) frames)
  | .atFirst (.items read :: frames), lexeme => enter? lexeme (.items read :: frames)
  | .atFirst (.members _ :: frames), .closeObject => some (.afterValue (.object []) frames)
  | .atFirst frames, lexeme => named? lexeme frames
  | .atName frames, lexeme => named? lexeme frames
  | .atColon frames, .colon => some (.atValue frames)
  | .atColon _, _ => none
  | .afterValue value frames, lexeme => proceed? lexeme value frames

/-- The value, if the text has been read to its end. -/
def result? : Progress → Option Raw
  | .afterValue value [] => some value
  | _ => none

end Progress

/-- The value that a text writes. -/
def Raw.ofText? (text : String) : Option Raw := do
  let progress ← (← Lexeme.all? text).foldlM Progress.step? (.atValue [])
  progress.result?

/-- How deep arrays and objects may nest. -/
def depthLimit : Nat :=
  127

/-- What counts of the value that a text holds. -/
def readWithin? (scope : Scope) (text : String) : Option Json :=
  (Raw.ofText? text).bind (Raw.value? depthLimit scope)

/-- The value that a text holds. -/
def read? (text : String) : Option Json :=
  readWithin? .all text

end Mcfunction.Json
