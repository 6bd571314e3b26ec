import Mcfunction.Cursor

/-!
# Line Endings

Some editors end a line by a carriage return and a line feed, others by a line feed alone. A text
with endings of the first kind becomes one with endings of the second kind when its carriage returns
are left out; each offset in the one text then has its counterpart in the other.
-/

namespace Mcfunction.Text

/-- The characters without the carriage returns among them. -/
def unix (chars : List Char) : List Char :=
  chars.filter (· != '\r')

/-- The characters with a carriage return before each line feed. -/
def dos (chars : List Char) : List Char :=
  chars.flatMap fun c => if c == '\n' then ['\r', '\n'] else [c]

/-- The text without its carriage returns. -/
def toUnix (text : String) : String :=
  String.ofList (unix text.toList)

/-- The text with a carriage return before each line feed. -/
def toDos (text : String) : String :=
  String.ofList (dos text.toList)

/-- How many of the first `offset` bytes of `chars` belong to no carriage return. Past the end each
byte counts. -/
def unixOffset : List Char → Nat → Nat
  | [], offset => offset
  | c :: chars, offset =>
    if c == '\r' then unixOffset chars (offset - 1)
    else min offset c.utf8Size + unixOffset chars (offset - c.utf8Size)

/-- After each carriage return a line feed stands. -/
def Paired (chars : List Char) : Prop :=
  ∀ front tail, chars = front ++ '\r' :: tail → tail.head? = some '\n'

end Mcfunction.Text
