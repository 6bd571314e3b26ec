import Mcfunction.Json.Source

/-!
# Laying out JSON with Comments

A `Jsonc.Layout` is a sequence of spelled lexemes with blanks and comments before, between and
after them. `Layout.chars` is the text that results, and `Layout.plain` the layout that is left
of it in plain JSON: of a comment its line breaks stay, and a comma directly before a closing
bracket is gone, with the gaps around it joined.
-/

namespace Mcfunction.Jsonc

open Json (Spelling Lexeme)

/-- What may stand between two lexemes, once. -/
inductive Trivium where
  /-- A character of JSON whitespace. -/
  | blank (c : Char) (isBlank : Lexeme.isBlank c = true)
  /-- A comment that ends with its line, and the line break. -/
  | lineComment (body : List Char) (oneLine : '\n' ∉ body)
  /-- A comment with a mark of its own at the end. -/
  | blockComment (body : List Char) (unclosed : ¬ ['*', '/'] <:+: body)

namespace Trivium

/-- A line break. -/
def newline : Trivium :=
  .blank '\n' rfl

/-- The text. -/
def chars : Trivium → List Char
  | .blank c _ => [c]
  | .lineComment body _ => '/' :: '/' :: (body ++ ['\n'])
  | .blockComment body _ => '/' :: '*' :: (body ++ ['*', '/'])

/-- What is left in plain JSON. -/
def plain : Trivium → List Trivium
  | .blank c isBlank => [.blank c isBlank]
  | .lineComment _ _ => [.newline]
  | .blockComment body _ => List.replicate (body.count '\n') .newline

/-- Whether it is no comment. -/
def isPlain : Trivium → Bool
  | .blank _ _ => true
  | _ => false

end Trivium

/-- A spelled lexeme and what stands before it. -/
structure Piece where
  /-- Blanks and comments. -/
  gap : List Trivium
  /-- The lexeme. -/
  token : Spelling

namespace Piece

/-- The text. -/
def chars (piece : Piece) : List Char :=
  piece.gap.flatMap Trivium.chars ++ piece.token.chars

/-- The piece without its comments. -/
def plain (piece : Piece) : Piece :=
  { piece with gap := piece.gap.flatMap Trivium.plain }

/-- The pieces without the commas that stand directly before a closing bracket. What stood before
such a comma now stands before the bracket. -/
def joinTrailing : List Piece → List Piece
  | [] => []
  | [piece] => [piece]
  | piece :: next :: pieces =>
    if piece.token.lexeme.isComma && next.token.lexeme.closes then
      { next with gap := piece.gap ++ next.gap } :: joinTrailing pieces
    else piece :: joinTrailing (next :: pieces)

end Piece

/-- A comment that the end of the text ends. -/
structure OpenComment where
  /-- What follows the two slashes. -/
  body : List Char
  /-- The comment does not end before. -/
  oneLine : '\n' ∉ body

/-- The text of a comment at the end of a text. -/
def OpenComment.chars (comment : OpenComment) : List Char :=
  '/' :: '/' :: comment.body

/-- Spelled lexemes with blanks and comments around them. -/
structure Layout where
  /-- The lexemes, each with what stands before it. -/
  pieces : List Piece
  /-- What stands behind them. -/
  last : List Trivium
  /-- A comment at the very end. -/
  comment : Option OpenComment

namespace Layout

/-- The lexemes as they are spelled. -/
def tokens (layout : Layout) : List Spelling :=
  layout.pieces.map Piece.token

/-- The characters of the text. -/
def chars (layout : Layout) : List Char :=
  layout.pieces.flatMap Piece.chars ++ layout.last.flatMap Trivium.chars ++
    (layout.comment.map OpenComment.chars).getD []

/-- The text. -/
def text (layout : Layout) : String :=
  String.ofList layout.chars

/-- What is left in plain JSON. -/
def plain (layout : Layout) : Layout where
  pieces := Piece.joinTrailing (layout.pieces.map Piece.plain)
  last := layout.last.flatMap Trivium.plain
  comment := none

/-- Whether the layout has no comments. -/
def isPlain (layout : Layout) : Bool :=
  layout.pieces.all (fun piece => piece.gap.all Trivium.isPlain) &&
    layout.last.all Trivium.isPlain && layout.comment.isNone

end Layout

end Mcfunction.Jsonc
