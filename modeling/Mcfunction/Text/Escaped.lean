import Mcfunction.Text.Extender
import Mcfunction.Text.Unprintable

/-!
# Escaped Text

Two ways to write a text so that it can stand between quotes.

`Text.escape` is for messages and for generated tables: printable ASCII stays as it is, the quotes
and the backslash stand behind a backslash, tab, line feed and carriage return are written by their
letters, and every other character by its code point in hexadecimal.

`Text.visible` is for texts in which every character shall be seen and told apart: the double
quote, the backslash and the common controls are escaped by a letter, and every character that is
unprintable or ignorable or extends the one before it by its code point.
-/

namespace Mcfunction.Text

/-! ### Escaped text -/

/-- The escape of a character by its code point, in lower case and without leading zeros. -/
def codePointEscape (c : Char) : List Char :=
  '\\' :: 'u' :: '{' :: Nat.toDigits 16 c.toNat ++ ['}']

/-- One character inside a quoted literal. -/
def escapeChar (c : Char) : List Char :=
  match c with
  | '\t' => ['\\', 't']
  | '\r' => ['\\', 'r']
  | '\n' => ['\\', 'n']
  | '\'' => ['\\', '\'']
  | '"' => ['\\', '"']
  | '\\' => ['\\', '\\']
  | c => if ' ' ≤ c ∧ c ≤ '~' then [c] else codePointEscape c

/-- The text of a quoted literal, without its quotes. -/
def escape (text : String) : String :=
  String.ofList (text.toList.flatMap escapeChar)

/-! ### Visible text -/

/-- The first and last characters of each range of ignorable characters. -/
def ignorableRanges : List (Nat × Nat) :=
  [(0xad, 0xad), (0x34f, 0x34f), (0x61c, 0x61c), (0x115f, 0x1160), (0x17b4, 0x17b5),
    (0x180b, 0x180f), (0x200b, 0x200f), (0x202a, 0x202e), (0x2060, 0x206f), (0x3164, 0x3164),
    (0xfe00, 0xfe0f), (0xfeff, 0xfeff), (0xffa0, 0xffa0), (0xfff0, 0xfff8), (0x1bca0, 0x1bca3),
    (0x1d173, 0x1d17a), (0xe0000, 0xe0fff)]

/-- Whether a character has the Unicode property `Default_Ignorable_Code_Point`: fillers, joiners,
variation selectors and places reserved for more of them. Whoever does not know what they are for
draws nothing for them, also where they count as letters. -/
def isIgnorable (c : Char) : Bool :=
  ignorableRanges.any fun (first, last) => first ≤ c.toNat && c.toNat ≤ last

/-- One character between double quotes. -/
def visibleChar (c : Char) : List Char :=
  match c with
  | '\x00' => ['\\', '0']
  | '\t' => ['\\', 't']
  | '\r' => ['\\', 'r']
  | '\n' => ['\\', 'n']
  | '"' => ['\\', '"']
  | '\\' => ['\\', '\\']
  | c =>
    if ' ' ≤ c ∧ c ≤ '~' then [c]
    else if isExtender c || isIgnorable c || isUnprintable c then codePointEscape c
    else [c]

/-- A text between double quotes. -/
def visible (text : String) : String :=
  String.ofList ('"' :: text.toList.flatMap visibleChar ++ ['"'])

end Mcfunction.Text
