import Mathlib.Algebra.Group.Even
import Mathlib.Data.List.DropRight
import Mcfunction.Tree.Leaf

/-!
# Escaping

How text is written between quotes. The text of a quoted string is made of pieces: a character
that stands for itself, or a backslash and the character that it escapes. A backslash alone is
no piece, so a text made of pieces never ends with a backslash that escapes nothing.

Escaped text also escapes `$`, so that no interpolation starts in it.
-/

namespace Mcfunction

/-- A piece of the text between two quotes. -/
inductive Piece where
  /-- A character that stands for itself. -/
  | plain (c : Char) (unslashed : c ≠ '\\')
  /-- A backslash and the character that it escapes. -/
  | escape (c : Char)
deriving DecidableEq

namespace Piece

/-- The text of a piece. -/
def written : Piece → List Char
  | .plain c _ => [c]
  | .escape c => ['\\', c]

/-- The character that a piece stands for. -/
def meaning : Piece → Char
  | .plain c _ => c
  | .escape 'n' => '\n'
  | .escape 't' => '\t'
  | .escape 'r' => '\r'
  | .escape c => c

/-- The piece that writes a character between quotes of the given kind. -/
def ofChar (quote c : Char) : Piece :=
  if h : c = '\\' ∨ c = quote ∨ c = '$' then .escape c
  else if c = '\n' then .escape 'n'
  else if c = '\r' then .escape 'r'
  else if c = '\t' then .escape 't'
  else .plain c fun heq => h (.inl heq)

end Piece

/-- The text that writes `chars` between quotes of the given kind. -/
def escapeChars (quote : Char) (chars : List Char) : List Char :=
  chars.flatMap fun c => (Piece.ofChar quote c).written

/-- The backslashes of a string and the characters after them are paired: its text is made of
pieces, its value is what they stand for, and there are evenly many backslashes at its end. -/
structure StringLiteral.Paired (literal : StringLiteral) : Prop where
  /-- The text is made of pieces, and the value of what they stand for. -/
  exists_pieces : ∃ pieces : List Piece,
    literal.value.toList = pieces.flatMap Piece.written ∧
    literal.unescaped.toList = pieces.map Piece.meaning
  /-- There is no backslash left over at the end. -/
  even_backslashes : Even (literal.value.toList.rtakeWhile (· == '\\')).length

end Mcfunction
