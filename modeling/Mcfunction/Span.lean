/-!
# Byte Spans

Every node of a syntax tree, every diagnostic and every token says where it stands in the
source as a span: a half-open range of byte offsets into the UTF-8 text. A span is plain
data; `Span.between` is the checked way to build one, and refuses a range whose end lies
before its start with a `Fault`. Offsets are numbers of 64 bits: `offsetPast` refuses to
compute a larger one, and `offsetBefore` one below zero.
-/

namespace Mcfunction

/-- The byte range from `start` up to, and not including, `stop`. -/
structure Span where
  /-- Offset of the first byte. -/
  start : Nat
  /-- Offset just past the last byte. -/
  stop : Nat
deriving DecidableEq, Inhabited

/-- A broken promise of the program itself, as opposed to a fault of the text it reads. -/
inductive Fault where
  /-- A span was asked for whose end lies before its start. -/
  | invertedSpan (start stop : Nat)
  /-- An offset was asked for that does not fit into 64 bits. -/
  | offsetOverflow
  /-- An offset was asked for that lies before the start of the text. -/
  | offsetUnderflow
  /-- A piece of text was asked for whose ends are out of order, lie past the end of the text
  or inside a character. -/
  | badSlice (start stop : Nat)
  /-- A place was asked for that lies past the end of the text or inside a character. -/
  | badOffset (offset : Nat)
  /-- A loop that must consume text at each turn ran out of turns. -/
  | stalled
deriving DecidableEq

/-- What is reported when a promise is broken. -/
def Fault.message : Fault → String
  | .invertedSpan start stop => s!"Span end ({stop}) < start ({start})"
  | .offsetOverflow => "attempt to add with overflow"
  | .offsetUnderflow => "attempt to subtract with overflow"
  | .badSlice start stop => s!"byte range {start}..{stop} does not delimit text"
  | .badOffset offset => s!"byte offset {offset} is not between two characters"
  | .stalled => "no progress"

/-- The first number that is too large for an offset. -/
def offsetLimit : Nat :=
  Nat.pow 2 64

/-- The offset `count` bytes past `offset`, refused when it does not fit into 64 bits. -/
def offsetPast (offset count : Nat) : Except Fault Nat :=
  if offset + count < offsetLimit then .ok (offset + count) else .error .offsetOverflow

/-- The offset `count` bytes before `offset`, refused when there are not so many. -/
def offsetBefore (offset count : Nat) : Except Fault Nat :=
  if count ≤ offset then .ok (offset - count) else .error .offsetUnderflow

namespace Span

/-- The span from `start` to `stop`, refused when `stop` lies before `start`. -/
def between (start stop : Nat) : Except Fault Span :=
  if start ≤ stop then .ok ⟨start, stop⟩ else .error (.invertedSpan start stop)

/-- The span at `offset` that covers nothing. -/
def empty (offset : Nat) : Span :=
  ⟨offset, offset⟩

/-- Whether the span covers no byte. -/
def isEmpty (span : Span) : Bool :=
  span.start == span.stop

/-- The text that the span covers, if both ends stand between two characters of `text`. -/
def slice? (span : Span) (text : String) : Option String :=
  if span.start ≤ span.stop then
    match text.pos? ⟨span.start⟩, text.pos? ⟨span.stop⟩ with
    | some first, some last => some (String.extract first last)
    | _, _ => none
  else
    none

end Span

end Mcfunction
