/-!
# Character Classes and Runs

The classes of characters that the recognizers test, and the two ways in which a recognizer
takes text: a run of one class, and a step repeated until it takes nothing.

All classes hold ASCII characters only.
-/

namespace Mcfunction.Scan

/-- Characters of keywords, namespaces and NBT keys. -/
def isWordChar (c : Char) : Bool :=
  c.isAlphanum || c == '_' || c == '-'

/-- Characters of resource path segments and of fake player names. -/
def isPathChar (c : Char) : Bool :=
  isWordChar c || c == '.'

/-- Inline whitespace. A carriage return counts, so that files with either line ending read
the same. -/
def isBlank (c : Char) : Bool :=
  c == ' ' || c == '\t' || c == '\r'

/-- The type letters that may close a number. -/
def isSuffixLetter (c : Char) : Bool :=
  match c with
  | 'b' | 's' | 'l' | 'f' | 'd' | 't' | 'B' | 'S' | 'L' | 'F' | 'D' | 'T' => true
  | _ => false

/-- How many characters of the class stand at the front. -/
def run (inClass : Char → Bool) (chars : List Char) : Nat :=
  (chars.takeWhile inClass).length

/-- A run of the class, if it is not empty. -/
def run? (inClass : Char → Bool) (chars : List Char) : Option Nat :=
  match run inClass chars with
  | 0 => none
  | count + 1 => some (count + 1)

/-- How many characters are taken by taking `step` of what is left until `step` takes none.
The first `pending` characters belong to a step already decided. -/
def repeated (step : List Char → Nat) : Nat → List Char → Nat
  | _, [] => 0
  | pending + 1, _ :: chars => repeated step pending chars + 1
  | 0, c :: chars =>
    match step (c :: chars) with
    | 0 => 0
    | count + 1 => repeated step count chars + 1

end Mcfunction.Scan
