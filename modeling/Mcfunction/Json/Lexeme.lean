import Mcfunction.Json.Numeral

/-!
# The Lexemes of JSON

`Json.Lexeme.all?` cuts a text into punctuation, strings, numerals and fixed words, with JSON
whitespace between them. Strings hold no control character, and escapes must be complete. A
string with half of a surrogate pair and a numeral beyond the largest number are lexemes, but
stand for nothing.
-/

namespace Mcfunction.Json

/-- The smallest parts of a JSON text. -/
inductive Lexeme where
  /-- `[` -/
  | openArray
  /-- `]` -/
  | closeArray
  /-- An opening brace. -/
  | openObject
  /-- A closing brace. -/
  | closeObject
  /-- `,` -/
  | comma
  /-- `:` -/
  | colon
  /-- A string, if it stands for a text. -/
  | string (text : Option String)
  /-- A numeral or a fixed word, if it stands for a value. -/
  | scalar (value : Option Json)

namespace Lexeme

/-- JSON whitespace. -/
def isBlank (c : Char) : Bool :=
  c == ' ' || c == '\n' || c == '\t' || c == '\r'

/-! ### Strings -/

/-- The value of a hexadecimal digit. -/
def hexValue? (c : Char) : Option Nat :=
  if c.isDigit then some (c.toNat - '0'.toNat)
  else if 'a' ≤ c ∧ c ≤ 'f' then some (c.toNat - 'a'.toNat + 10)
  else if 'A' ≤ c ∧ c ≤ 'F' then some (c.toNat - 'A'.toNat + 10)
  else none

/-- The number that four hexadecimal digits at the front write, and the text after them. -/
def codeUnit? (chars : List Char) : Option (Nat × List Char) :=
  match chars with
  | a :: b :: c :: d :: tail =>
    match hexValue? a, hexValue? b, hexValue? c, hexValue? d with
    | some a, some b, some c, some d => some (((a * 16 + b) * 16 + c) * 16 + d, tail)
    | _, _, _, _ => none
  | _ => none

/-- The second half of a surrogate pair, escaped at the front of a text, and the text after
it. -/
def lowSurrogate? (chars : List Char) : Option (Nat × List Char) :=
  match chars with
  | '\\' :: 'u' :: chars =>
    match codeUnit? chars with
    | some (unit, tail) => if 0xdc00 ≤ unit ∧ unit < 0xe000 then some (unit, tail) else none
    | none => none
  | _ => none

/-- The character that an escape writes after its `\u`, and the text after it: one code unit,
or two that form a surrogate pair. A surrogate without its other half writes no character. -/
def unicodeEscape? (chars : List Char) : Option (Option Char × List Char) :=
  match codeUnit? chars with
  | none => none
  | some (unit, tail) =>
    if unit < 0xd800 ∨ 0xe000 ≤ unit then some (some (Char.ofNat unit), tail)
    else if 0xdc00 ≤ unit then some (none, tail)
    else
      match lowSurrogate? tail with
      | some (low, tail) =>
        some (some (Char.ofNat (0x10000 + (unit - 0xd800) * 0x400 + (low - 0xdc00))), tail)
      | none => some (none, tail)

/-- The character that an escape writes by a letter. -/
def letterEscape? (c : Char) : Option Char :=
  match c with
  | '"' => some '"'
  | '\\' => some '\\'
  | '/' => some '/'
  | 'b' => some '\x08'
  | 'f' => some '\x0c'
  | 'n' => some '\n'
  | 'r' => some '\r'
  | 't' => some '\t'
  | _ => none

/-- The escape at the front of a text, after its backslash, and the text after it. -/
def escape? (chars : List Char) : Option (Option Char × List Char) :=
  match chars with
  | [] => none
  | 'u' :: chars => unicodeEscape? chars
  | letter :: chars => (letterEscape? letter).map fun c => (some c, chars)

/-- The rest of a string after its opening quote, and the text after the string. `read` holds
the characters before, the last one first, unless one of them is missing; `fuel` bounds the
characters that are left. -/
def stringBody? (read : Option (List Char)) : Nat → List Char → Option (Option String × List Char)
  | 0, _ => none
  | _, [] => none
  | fuel + 1, c :: chars =>
    if c == '"' then some (read.map fun read => String.ofList read.reverse, chars)
    else if c == '\\' then
      match escape? chars with
      | none => none
      | some (c, chars) => stringBody? (c.bind fun c => read.map (c :: ·)) fuel chars
    else if c < ' ' then none
    else stringBody? (read.map (c :: ·)) fuel chars

/-! ### Lexemes -/

/-- The fixed words. -/
def words : List (String × Json) :=
  [("null", .null), ("true", .bool true), ("false", .bool false)]

/-- The fixed word at the front of a text, and the text after it. -/
def word? (chars : List Char) : Option (Lexeme × List Char) :=
  (words.find? fun word => word.1.toList.isPrefixOf chars).map fun word =>
    (.scalar (some word.2), chars.drop word.1.length)

/-- The lexeme at the front of a text, and the text after it. -/
def first? (chars : List Char) : Option (Lexeme × List Char) :=
  match chars with
  | [] => none
  | c :: tail =>
    match c with
    | '[' => some (.openArray, tail)
    | ']' => some (.closeArray, tail)
    | '{' => some (.openObject, tail)
    | '}' => some (.closeObject, tail)
    | ',' => some (.comma, tail)
    | ':' => some (.colon, tail)
    | '"' =>
      (stringBody? (some []) (tail.length + 1) tail).map fun (text, tail) => (.string text, tail)
    | c =>
      if c == '-' || c.isDigit then
        (numeral? chars).map fun (value, tail) => (.scalar value, tail)
      else word? chars

/-- The lexemes of a text. `read` holds those before, the last one first; `fuel` bounds the
characters that are left. -/
def allFrom? (read : List Lexeme) : Nat → List Char → Option (List Lexeme)
  | _, [] => some read.reverse
  | 0, _ => none
  | fuel + 1, c :: chars =>
    if isBlank c then allFrom? read fuel chars
    else
      match first? (c :: chars) with
      | none => none
      | some (lexeme, tail) => allFrom? (lexeme :: read) fuel tail

/-- The lexemes of a text. -/
def all? (text : String) : Option (List Lexeme) :=
  let chars := text.toList
  allFrom? [] chars.length chars

end Lexeme

end Mcfunction.Json
