import Mcfunction.Json.Lexeme

/-!
# The Lexemes of Generated Source Text

How a compiler cuts the generated files into words, marks, string literals and documentation
lines. `Lexeme.all?` reads one character after the other, and what it has read so far is a
`State`. It knows as much of the language as a table can hold, and refuses the rest: numerals,
character literals, operators and comments between marks of their own. What it accepts it cuts
as the language says.

A string literal holds every character but a quote, a backslash and a carriage return of its
own. Its escapes are letters for the common control characters, the quotes and the backslash,
two hexadecimal digits for ASCII, and up to six between braces for any character. A line break
behind a backslash is left out with all whitespace behind it.
-/

namespace Mcfunction.Catalogue

/-- The smallest parts of a generated file. -/
inductive Lexeme where
  /-- A name or a keyword. -/
  | word (name : String)
  /-- A string literal, by its value. -/
  | literal (text : String)
  /-- A documentation line, without its slashes. -/
  | note (line : String)
  /-- `=>` -/
  | arrow
  /-- `::` -/
  | doubleColon
  /-- `:` -/
  | colon
  /-- `=` -/
  | equals
  /-- `,` -/
  | comma
  /-- `;` -/
  | semicolon
  /-- `&` -/
  | ampersand
  /-- `(` -/
  | openParen
  /-- `)` -/
  | closeParen
  /-- An opening brace. -/
  | openBrace
  /-- A closing brace. -/
  | closeBrace
deriving DecidableEq

namespace Lexeme

/-- The lexeme that a single character is, whatever follows. -/
def mark? : Char → Option Lexeme
  | ',' => some .comma
  | ';' => some .semicolon
  | '&' => some .ampersand
  | '(' => some .openParen
  | ')' => some .closeParen
  | '{' => some .openBrace
  | '}' => some .closeBrace
  | _ => none

/-- Whitespace between lexemes. -/
def isSpace (c : Char) : Bool :=
  c ∈ [' ', '\t', '\n', '\x0b', '\x0c', '\r', '\u0085', '\u200e', '\u200f', '\u2028', '\u2029']

/-- Characters that a word starts with. -/
def isWordStart (c : Char) : Bool :=
  c.isAlpha || c == '_'

/-- Characters of a word. -/
def isWordChar (c : Char) : Bool :=
  c.isAlphanum || c == '_'

/-! ### String literals -/

/-- Which escape of a string literal is open. -/
inductive Mode where
  /-- None. -/
  | plain
  /-- A backslash stands before. -/
  | escape
  /-- The first digit of an ASCII character is expected. -/
  | highDigit
  /-- The second digit of an ASCII character is expected. -/
  | lowDigit (high : Nat)
  /-- The brace before a code point is expected. -/
  | brace
  /-- Digits of a code point are read. -/
  | codePoint (digits value : Nat)
  /-- The line break that a carriage return belongs to is expected. -/
  | ending
  /-- The same behind a backslash. -/
  | escapedEnding
  /-- Whitespace is left out. -/
  | skip
deriving DecidableEq

namespace Mode

/-- Reads a character that no escape holds. -/
def readPlain (c : Char) : Option (Mode × List Char) :=
  if c = '\\' then some (.escape, [])
  else if c = '\r' then some (.ending, [])
  else some (.plain, [c])

/-- Reads the character behind a backslash. -/
def readEscape (c : Char) : Option (Mode × List Char) :=
  match c with
  | 'n' => some (.plain, ['\n'])
  | 'r' => some (.plain, ['\r'])
  | 't' => some (.plain, ['\t'])
  | '0' => some (.plain, ['\x00'])
  | '\\' => some (.plain, ['\\'])
  | '\'' => some (.plain, ['\''])
  | '"' => some (.plain, ['"'])
  | 'x' => some (.highDigit, [])
  | 'u' => some (.brace, [])
  | '\n' => some (.skip, [])
  | '\r' => some (.escapedEnding, [])
  | _ => none

/-- Reads a character between the braces of a code point. -/
def readCodePoint (digits value : Nat) (c : Char) : Option (Mode × List Char) :=
  if c = '}' then
    if 0 < digits ∧ value.isValidChar then some (.plain, [Char.ofNat value]) else none
  else if c = '_' then
    if 0 < digits then some (.codePoint digits value, []) else none
  else if digits < 6 then
    (Json.Lexeme.hexValue? c).map fun digit => (.codePoint (digits + 1) (value * 16 + digit), [])
  else none

/-- Reads a character that does not close the literal: what is open then, and what it adds to
the value. -/
def read (mode : Mode) (c : Char) : Option (Mode × List Char) :=
  match mode with
  | .plain => readPlain c
  | .escape => readEscape c
  | .highDigit => (Json.Lexeme.hexValue? c).bind fun digit =>
    if digit < 8 then some (.lowDigit digit, []) else none
  | .lowDigit high => (Json.Lexeme.hexValue? c).map fun digit =>
    (.plain, [Char.ofNat (high * 16 + digit)])
  | .brace => if c = '{' then some (.codePoint 0 0, []) else none
  | .codePoint digits value => readCodePoint digits value c
  | .ending => if c = '\n' then some (.plain, ['\n']) else none
  | .escapedEnding => if c = '\n' then some (.skip, []) else none
  | .skip => if c ∈ [' ', '\t', '\n', '\r'] then some (.skip, []) else readPlain c

/-- Whether a quote closes the literal. -/
def closes : Mode → Bool
  | .plain => true
  | .skip => true
  | _ => false

end Mode

/-! ### The machine -/

/-- What of a lexeme has been read; the last character of it comes first. -/
inductive State where
  /-- Nothing. -/
  | between
  /-- Characters of a word. -/
  | word (read : List Char)
  /-- A quote, and characters of the value behind it. -/
  | literal (mode : Mode) (read : List Char)
  /-- `=` -/
  | equals
  /-- `:` -/
  | colon
  /-- `/` -/
  | slash
  /-- `//` -/
  | slashes
  /-- `///` -/
  | noteMark
  /-- `///` and characters of the line. -/
  | note (read : List Char)
  /-- `///`, characters of the line and a carriage return. -/
  | noteEnding (read : List Char)
  /-- A comment that documents nothing. -/
  | comment
deriving DecidableEq

namespace State

/-- Reads the first character of a lexeme, or whitespace. -/
def start (c : Char) : Option (State × List Lexeme) :=
  if isSpace c then some (.between, [])
  else if isWordStart c then some (.word [c], [])
  else
    match c with
    | '"' => some (.literal .plain [], [])
    | '=' => some (.equals, [])
    | ':' => some (.colon, [])
    | '/' => some (.slash, [])
    | c => (mark? c).map fun lexeme => (.between, [lexeme])

/-- Reads a character that does not belong to the lexeme before it. -/
def startAfter (lexeme : Lexeme) (c : Char) : Option (State × List Lexeme) :=
  (start c).map fun (state, lexemes) => (state, lexeme :: lexemes)

/-- The word of the characters read. -/
def wordOf (read : List Char) : Lexeme :=
  .word (String.ofList read.reverse)

/-- The documentation line of the characters read. -/
def noteOf (read : List Char) : Lexeme :=
  .note (String.ofList read.reverse)

/-- Reads a character of a documentation line. -/
def readNote (read : List Char) (c : Char) : Option (State × List Lexeme) :=
  if c = '\n' then some (.between, [noteOf read])
  else if c = '\r' then some (.noteEnding read, [])
  else some (.note (c :: read), [])

/-- Reads one character: what has been read of the lexeme it belongs to, and the lexemes that
are complete. -/
def step (state : State) (c : Char) : Option (State × List Lexeme) :=
  match state with
  | .between => start c
  | .word read =>
    if isWordChar c then some (.word (c :: read), [])
    else if c ∈ ['"', '\'', '#'] then none
    else startAfter (wordOf read) c
  | .literal mode read =>
    if c = '"' ∧ mode.closes then some (.between, [.literal (String.ofList read.reverse)])
    else (mode.read c).map fun (mode, chars) => (.literal mode (chars.reverse ++ read), [])
  | .equals =>
    if c = '>' then some (.between, [.arrow])
    else if c = '=' then none
    else startAfter .equals c
  | .colon => if c = ':' then some (.between, [.doubleColon]) else startAfter .colon c
  | .slash => if c = '/' then some (.slashes, []) else none
  | .slashes =>
    if c = '/' then some (.noteMark, [])
    else if c = '!' then none
    else if c = '\n' then some (.between, [])
    else some (.comment, [])
  | .noteMark => if c = '/' then some (.comment, []) else readNote [] c
  | .note read => readNote read c
  | .noteEnding read => if c = '\n' then some (.between, [noteOf read]) else none
  | .comment => if c = '\n' then some (.between, []) else some (.comment, [])

/-- Reads characters one after the other. -/
def run (state : State) : List Char → Option (State × List Lexeme)
  | [] => some (state, [])
  | c :: chars => do
    let (state, lexemes) ← state.step c
    let (state, more) ← run state chars
    return (state, lexemes ++ more)

/-- The lexeme that the end of the text completes, if it may end here. -/
def finish : State → Option (List Lexeme)
  | .between => some []
  | .word read => some [wordOf read]
  | .literal _ _ => none
  | .equals => some [.equals]
  | .colon => some [.colon]
  | .slash => none
  | .slashes => some []
  | .noteMark => some [noteOf []]
  | .note read => some [noteOf read]
  | .noteEnding _ => none
  | .comment => some []

end State

/-- The lexemes of a text. -/
def all? (text : String) : Option (List Lexeme) := do
  let (state, lexemes) ← State.run .between text.toList
  return lexemes ++ (← state.finish)

end Lexeme

end Mcfunction.Catalogue
