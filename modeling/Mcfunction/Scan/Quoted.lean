import Mcfunction.Scan.Trivia

/-!
# Quoted Strings and Interpolations

A quoted string runs from its quote to the next unescaped quote of the same kind on the same
line. An interpolation `$(name)` runs from its `$(` to the first `)` on the same line, and a
quoted string takes it as a unit. Text of an interpolated argument outside quotes is cut into
interpolations and fragments.

The recognizers of this module can fail, and say where and why as an `Error`.
-/

namespace Mcfunction

/-- Why a single token could not be read. -/
inductive LexicalFault where
  /-- A quoted string meets a line break or the end of the text. -/
  | unterminatedString
  /-- A backslash in a string has no character to escape. -/
  | invalidEscape
  /-- An interpolation is not closed on its line. -/
  | unterminatedInterpolation
deriving DecidableEq

namespace Scan

/-- A token that could not be read, with the range of characters at fault, counted from the
place where the recognizer stood. The range never ends before it starts. -/
structure Error where
  /-- What is wrong. -/
  fault : LexicalFault
  /-- Count of the characters before the range. -/
  start : Nat
  /-- Count of the characters up to the end of the range. -/
  stop : Nat
  /-- The range does not end before its start. -/
  ordered : start ≤ stop := by omega
deriving DecidableEq

/-- The same error seen from `count` characters before. -/
def Error.shift (count : Nat) (error : Error) : Error :=
  ⟨error.fault, count + error.start, count + error.stop, Nat.add_le_add_left error.ordered count⟩

/-- Whether an interpolation starts here. -/
def startsInterpolation (chars : List Char) : Bool :=
  match chars with
  | '$' :: '(' :: _ => true
  | _ => false

/-- The characters that hold the two bytes of an interpolation's opener. -/
def openerCount (chars : List Char) : Nat :=
  match chars with
  | [] => 2
  | c :: _ => if c.utf8Size == 1 then 2 else 1

/-- An interpolation, its closing parenthesis included. When it is not closed, the range at
fault leaves out a carriage return before the line break. -/
def interpolation (chars : List Char) : Except Error Nat :=
  let opener := openerCount chars
  let body := chars.drop opener
  let count := run (fun c => c != ')' && c != '\n') body
  match body.drop count with
  | ')' :: _ => .ok (opener + count + 1)
  | _ =>
    let returns := if (body.take count).getLast? == some '\r' then 1 else 0
    .error { fault := .unterminatedInterpolation, start := 0, stop := opener + (count - returns) }

/-- A quoted string. -/
structure Quoted where
  /-- Count of the characters before the closing quote, the opening quote among them. -/
  before : Nat
  /-- Whether there is an interpolation between the quotes. -/
  interpolated : Bool
deriving DecidableEq

/-- The characters of the string, both quotes included. -/
def Quoted.count (quoted : Quoted) : Nat :=
  quoted.before + 1

/-- The rest of a string that a character with `closes` ends, after `before` characters of it.
The first `pending` characters belong to an escape or an interpolation already recognized. -/
def quotedFrom (closes : Char → Bool) (before : Nat) (interpolated : Bool) :
    Nat → List Char → Except Error Quoted
  | _, [] => .error { fault := .unterminatedString, start := 0, stop := before }
  | pending + 1, _ :: chars => quotedFrom closes (before + 1) interpolated pending chars
  | 0, c :: chars =>
    if c == '\n' then .error { fault := .unterminatedString, start := 0, stop := before }
    else if c == '\\' then
      match chars with
      | [] => .error { fault := .invalidEscape, start := before, stop := before + 1 }
      | '\n' :: _ => .error { fault := .invalidEscape, start := before, stop := before + 1 }
      | '\r' :: '\n' :: _ =>
        .error { fault := .invalidEscape, start := before, stop := before + 1 }
      | _ => quotedFrom closes (before + 1) interpolated 1 chars
    else if startsInterpolation (c :: chars) then
      match interpolation (c :: chars) with
      | .error error => .error (error.shift before)
      | .ok count => quotedFrom closes (before + 1) true (count - 1) chars
    else if closes c then .ok ⟨before, interpolated⟩
    else quotedFrom closes (before + 1) interpolated 0 chars

/-- The quoted string that the first character opens and the same character closes. -/
def quoted (chars : List Char) : Except Error Quoted :=
  match chars with
  | [] => .error { fault := .unterminatedString, start := 0, stop := 1 }
  | quote :: body => quotedFrom (· == quote) 1 false 0 body

/-- Whether a quote stands here. -/
def startsQuoted (chars : List Char) : Bool :=
  match chars with
  | '"' :: _ => true
  | '\'' :: _ => true
  | _ => false

/-- Characters that end a fragment wherever it stands. -/
def endsFragment (c : Char) : Bool :=
  match c with
  | ' ' | '\t' | '\n' | '\x0c' | '\r' | '}' | ']' | ',' | '"' | '\'' => true
  | _ => false

/-- Characters that end a fragment of a key, so that the operator after the key stays
visible. Elsewhere they belong to the fragment. -/
def endsKeyFragment (c : Char) : Bool :=
  match c with
  | ':' | '=' | '~' => true
  | _ => false

/-- One character of a fragment. -/
def fragmentStep (inKey : Bool) (chars : List Char) : Nat :=
  match chars with
  | [] => 0
  | c :: _ =>
    if endsFragment c || (inKey && endsKeyFragment c) || startsInterpolation chars ||
        (continuation chars).isSome then 0
    else 1

/-- The text of an interpolated argument up to its next interpolation or its end. -/
def fragment (inKey : Bool) (chars : List Char) : Option Nat :=
  match repeated (fragmentStep inKey) 0 chars with
  | 0 => none
  | count + 1 => some (count + 1)

/-- Characters that may stand before the first interpolation of an unquoted argument. -/
def isLeadChar (inKey : Bool) (c : Char) : Bool :=
  isPathChar c || c == '/' || (c == ':' && !inKey)

/-- Whether an interpolated argument starts here: a quoted string with an interpolation, or
an interpolation with at most a word glued before it. -/
def startsInterpolated (inKey : Bool) (chars : List Char) : Bool :=
  if startsQuoted chars then
    match quoted chars with
    | .ok quoted => quoted.interpolated
    | .error _ => false
  else startsInterpolation (chars.drop (run (isLeadChar inKey) chars))

/-- The interpolations and fragments of an unquoted key, with `fuel` pieces at most; nothing
if an interpolation is not closed. -/
def interpolatedKeyPieces : Nat → List Char → Option Nat
  | 0, _ => some 0
  | fuel + 1, chars =>
    if startsInterpolation chars then
      match interpolation chars with
      | .error _ => none
      | .ok count => (interpolatedKeyPieces fuel (chars.drop count)).map (count + ·)
    else
      match fragment true chars with
      | none => some 0
      | some count => (interpolatedKeyPieces fuel (chars.drop count)).map (count + ·)

/-- An unquoted interpolated key, if it is not empty and all its interpolations close. -/
def interpolatedKey (chars : List Char) : Option Nat :=
  match interpolatedKeyPieces chars.length chars with
  | some (count + 1) => some (count + 1)
  | _ => none

end Scan

end Mcfunction
