/-!
# JSON with Comments

`Jsonc.strip` turns JSON with comments and trailing commas into plain JSON. It first leaves out
the comments, `// …` up to the end of the line and `/* … */`, and then every comma that only
whitespace separates from a closing bracket. Nothing inside a string is touched, and no line
break is lost, so that a line of the result stands where it stood before.
-/

namespace Mcfunction

/-- Whether a character is one of the twenty-five with the Unicode property `White_Space`. -/
def Text.isWhitespace (c : Char) : Bool :=
  match c with
  | '\t' | '\n' | '\x0b' | '\x0c' | '\r' | ' ' => true
  | '\u0085' | '\u00a0' | '\u1680' | '\u2028' | '\u2029' | '\u202f' | '\u205f' | '\u3000' => true
  | c => '\u2000' ≤ c && c ≤ '\u200a'

namespace Jsonc

/-- What a place in the text belongs to. -/
inductive Region where
  /-- Anything but strings and comments. -/
  | code
  /-- A string. -/
  | string
  /-- A comment that ends with its line. -/
  | lineComment
  /-- A comment that ends with a mark of its own. -/
  | blockComment
deriving DecidableEq

/-- The text without its comments, when it starts in a region. Line breaks are kept. -/
def stripComments : Region → List Char → List Char
  | _, [] => []
  | .code, '/' :: '/' :: chars => stripComments .lineComment chars
  | .code, '/' :: '*' :: chars => stripComments .blockComment chars
  | .code, c :: chars => c :: stripComments (if c = '"' then .string else .code) chars
  | .string, '\\' :: c :: chars => '\\' :: c :: stripComments .string chars
  | .string, c :: chars => c :: stripComments (if c = '"' then .code else .string) chars
  | .lineComment, c :: chars =>
    if c = '\n' then c :: stripComments .code chars else stripComments .lineComment chars
  | .blockComment, '*' :: '/' :: chars => stripComments .code chars
  | .blockComment, c :: chars =>
    if c = '\n' then c :: stripComments .blockComment chars
    else stripComments .blockComment chars

/-- Whether the next thing after whitespace is a closing bracket. -/
def closesNext (chars : List Char) : Bool :=
  match chars.dropWhile Text.isWhitespace with
  | ']' :: _ => true
  | '}' :: _ => true
  | _ => false

/-- The text without its trailing commas, when it starts inside or outside of a string. -/
def stripTrailingCommas : Bool → List Char → List Char
  | _, [] => []
  | true, '\\' :: c :: chars => '\\' :: c :: stripTrailingCommas true chars
  | true, c :: chars => c :: stripTrailingCommas (c != '"') chars
  | false, c :: chars =>
    if c = ',' && closesNext chars then stripTrailingCommas false chars
    else c :: stripTrailingCommas (c == '"') chars

/-- The plain JSON of a text in JSON with comments. -/
def strip (text : String) : String :=
  String.ofList (stripTrailingCommas false (stripComments .code text.toList))

end Jsonc

end Mcfunction
