import Mcfunction.Diagnostic.ParseError
import Mcfunction.Scan.Comment
import Mcfunction.Scan.Word

/-!
# Flat Tokens

A reading of a text as a row of tokens that knows no grammar, for tools that show text. Tokens
tile the text: each starts where the one before it ends, whitespace and line breaks included.

The only context is whether a statement can start here: there a `#` starts a comment and a `$`
a macro line. Strings and interpolations must close on their line.
-/

namespace Mcfunction

/-- What a token is. -/
inductive TokenKind where
  /-- A comment up to the end of its statement. -/
  | comment
  /-- The `$` of a macro line. -/
  | macroSigil
  /-- A run of word characters. -/
  | word
  /-- A number with its type letter. -/
  | number
  /-- `~` or `^` with its offset. -/
  | coordinate
  /-- A quoted string. -/
  | string
  /-- `$(…)` -/
  | interpolation
  /-- `@` and a letter. -/
  | selector
  /-- `#name` -/
  | fakePlayer
  /-- A bracket, comma, equals sign, colon, point or slash. -/
  | punctuation
  /-- A backslash with the line break after it. -/
  | continuation
  /-- Spaces, tabs and carriage returns. -/
  | whitespace
  /-- A line break. -/
  | newline
  /-- Any other character. -/
  | unknown
deriving DecidableEq

/-- A piece of text and what it is. -/
structure Token where
  /-- What the token is. -/
  kind : TokenKind
  /-- The text of the token. -/
  text : String
  /-- Where the token is. -/
  span : Span
deriving DecidableEq

namespace Token

/-- Characters that are tokens of their own. -/
def isPunctuation (c : Char) : Bool :=
  match c with
  | '[' | ']' | '{' | '}' | ',' | '=' | ':' | '.' | '/' => true
  | _ => false

/-- A number or word, whichever is longer, or a single character. -/
def longest (c : Char) (chars : List Char) : TokenKind × Nat :=
  match Scan.wholeNumber chars, Scan.word chars with
  | some (count, _), _ => (.number, count)
  | none, some count => (.word, count)
  | none, none => (if isPunctuation c then .punctuation else .unknown, 1)

/-- The kind and length of the token that starts with `c`. -/
def scan (lineStart : Bool) (c : Char) (tail : List Char) :
    Except Scan.Error (TokenKind × Nat) :=
  let chars := c :: tail
  if c == '\n' then .ok (.newline, 1)
  else if Scan.isBlank c then .ok (.whitespace, Scan.run Scan.isBlank chars)
  else if c == '#' && lineStart then
    .ok (.comment, Scan.commentText chars)
  else if Scan.startsInterpolation chars then
    (Scan.interpolation chars).map fun count => (.interpolation, count)
  else if c == '$' && lineStart then .ok (.macroSigil, 1)
  else if Scan.startsQuoted chars then
    (Scan.quoted chars).map fun quoted => (.string, quoted.count)
  else if c == '@' && tail.head?.any Char.isAlpha then .ok (.selector, 2)
  else if c == '~' || c == '^' then .ok (.coordinate, (Scan.coordinate chars).getD 1)
  else
    match Scan.continuation chars, Scan.fakePlayer chars with
    | some count, _ => .ok (.continuation, count)
    | none, some count => .ok (.fakePlayer, count)
    | none, none => .ok (longest c chars)

/-- Whether a statement can start after a token of this kind. -/
def lineStartAfter (lineStart : Bool) : TokenKind → Bool
  | .newline => true
  | .whitespace => lineStart
  | .continuation => lineStart
  | _ => false

/-- The tokens from a cursor on, `fuel` of them at most. -/
def ofCursor (lineStart : Bool) : Nat → Cursor → Except ParseError (List Token)
  | 0, _ => .ok []
  | fuel + 1, cursor =>
    match cursor.rest with
    | [] => .ok []
    | c :: tail =>
      match scan lineStart c tail with
      | .error error => .error (error.at cursor)
      | .ok (kind, count) =>
        let next := cursor.advance count
        let token := ⟨kind, cursor.text count, ⟨cursor.offset, next.offset⟩⟩
        (ofCursor (lineStartAfter lineStart kind) fuel next).map (token :: ·)

/-- The tokens of a text, or the first token that cannot be read. -/
def ofText (text : String) : Except ParseError (List Token) :=
  ofCursor true text.toList.length (.start text)

end Token

end Mcfunction
