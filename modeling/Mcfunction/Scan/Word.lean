import Mcfunction.Scan.Number

/-!
# Words

Keywords, resource paths, command names and fake player names.
-/

namespace Mcfunction.Scan

/-- A keyword, namespace or NBT key. -/
def word (chars : List Char) : Option Nat :=
  run? isWordChar chars

/-- A further segment of a resource path with the slash before it. -/
def segmentStep (chars : List Char) : Nat :=
  match chars with
  | '/' :: segment =>
    match run isPathChar segment with
    | 0 => 0
    | count + 1 => 1 + (count + 1)
  | _ => 0

/-- A resource path: segments joined by slashes. -/
def path (chars : List Char) : Option Nat :=
  match run? isPathChar chars with
  | none => none
  | some first => some (first + repeated segmentStep 0 (chars.drop first))

/-- Characters of a command name after its first letter. -/
def isNameChar (c : Char) : Bool :=
  c.isAlphanum || c == '_'

/-- A command name: a lowercase letter, then letters, digits and underscores. -/
def commandName (chars : List Char) : Option Nat :=
  match chars with
  | c :: tail => if c.isLower then some (1 + run isNameChar tail) else none
  | [] => none

/-- A fake player name with the `#` before it. -/
def fakePlayer (chars : List Char) : Option Nat :=
  match chars with
  | '#' :: name => (run? isPathChar name).map (1 + ·)
  | _ => none

/-- The namespace of a resource location: a word with a colon after it, unless a number
reaches beyond the word. -/
def resourceNamespace (chars : List Char) : Option Nat :=
  match word chars with
  | none => none
  | some count =>
    let numberCount := ((suffixedNumber chars).map Prod.fst).getD 0
    if (chars.drop count).head? == some ':' && numberCount ≤ count then some count else none

/-- A number with its type letter, unless a word reaches beyond it. -/
def wholeNumber (chars : List Char) : Option (Nat × Option Char) :=
  match suffixedNumber chars, word chars with
  | some (count, suffix), some wordCount =>
    if wordCount ≤ count then some (count, suffix) else none
  | some (count, suffix), none => some (count, suffix)
  | none, _ => none

end Mcfunction.Scan
