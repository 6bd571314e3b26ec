import Mcfunction.Token
import Mcfunction.Tree.Node

/-!
# Marks

Comments, quoted strings and interpolations are parts of a document, and in a flat reading of its
text they are tokens. A `Mark` is what both tell of such a piece of text: what it is, and where it
stands.

An interpolation inside a quoted string has no mark: there the string as a whole is the token.
-/

namespace Mcfunction

/-- Whether a part of a document can be a token of this kind as a whole. -/
def TokenKind.isMark : TokenKind → Bool
  | .comment | .string | .interpolation => true
  | _ => false

/-- A piece of text that is a token and a part of a document. -/
structure Mark where
  /-- What the token is. -/
  kind : TokenKind
  /-- Where it is. -/
  span : Span
deriving DecidableEq

/-- The mark that a token is, if it is one. -/
def Token.mark? (token : Token) : Option Mark :=
  if token.kind.isMark then some ⟨token.kind, token.span⟩ else none

/-- The mark of a string if it has quotes. -/
def StringLiteral.marks (literal : StringLiteral) : List Mark :=
  if literal.quote = .bare then [] else [⟨.string, literal.span⟩]

/-- The mark of text with interpolations if it has quotes, and else those of its interpolations. -/
def Interpolated.marks (argument : Interpolated) : List Mark :=
  if argument.quote = .bare then
    argument.interpolations.map fun piece => ⟨.interpolation, piece.span⟩
  else [⟨.string, argument.span⟩]

/-- The mark of a macro name if it is an interpolation. -/
def MacroName.marks : MacroName → List Mark
  | .literal _ => []
  | .interpolation piece => [⟨.interpolation, piece.span⟩]

/-- The marks of a node, without those of the nodes in it. -/
def Node.marks : Node → List Mark
  | .comment node => [⟨.comment, node.span⟩]
  | .string node => node.marks
  | .interpolated node => node.marks
  | .macroCommand node => node.name.marks
  | _ => []

/-- The marks of a document in order. -/
def Document.marks (document : Document) : List Mark :=
  document.nodes.flatMap Node.marks

/-- Whether two spans have a byte in common. -/
def Span.overlaps (span other : Span) : Bool :=
  span.start < other.stop && other.start < span.stop

/-- Exactly one of the tokens has text in common with the mark, and that token is the mark. -/
def Mark.IsToken (mark : Mark) (tokens : List Token) : Prop :=
  ∃ token, tokens.filter (fun token => token.span.overlaps mark.span) = [token] ∧
    token.kind = mark.kind ∧ token.span = mark.span

/-- A flat reading of a text agrees with a document on comments, quoted strings and
interpolations. -/
structure Document.AgreesWith (document : Document) (tokens : List Token) : Prop where
  /-- A comment is a token. -/
  comment : ∀ comment, .comment comment ∈ document.statements →
    Mark.IsToken ⟨.comment, comment.span⟩ tokens
  /-- A quoted string is a token. -/
  string : ∀ literal, .string literal ∈ document.nodes → literal.quote ≠ .bare →
    Mark.IsToken ⟨.string, literal.span⟩ tokens
  /-- So is quoted text with interpolations. -/
  interpolated : ∀ argument, .interpolated argument ∈ document.nodes → argument.quote ≠ .bare →
    Mark.IsToken ⟨.string, argument.span⟩ tokens
  /-- Each interpolation in text without quotes is a token. -/
  interpolation : ∀ argument, .interpolated argument ∈ document.nodes → argument.quote = .bare →
    ∀ piece, .interpolation piece ∈ argument.fragments →
      Mark.IsToken ⟨.interpolation, piece.span⟩ tokens
  /-- So is an interpolation that is the name of a macro command. -/
  macroName : ∀ command piece, .macroCommand command ∈ document.nodes →
    command.name = .interpolation piece → Mark.IsToken ⟨.interpolation, piece.span⟩ tokens

end Mcfunction
