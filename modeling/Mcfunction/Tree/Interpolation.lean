import Mcfunction.Parser.Document
import Mcfunction.Tree.Node

/-!
# Interpolations of a Tree

The interpolations that stand somewhere in a tree: as the name of a macro command, or among the
pieces of an argument, a key or a value.

A quoted string can have `$(` in its text without having an interpolation, because a backslash
stands before it. Such a string shows an interpolation to whoever looks at its text alone.
-/

namespace Mcfunction

/-- The interpolation that a macro name is, if it is one. -/
def MacroName.interpolations : MacroName → List Interpolation
  | .literal _ => []
  | .interpolation piece => [piece]

/-- The interpolations of a node, without those of the nodes in it. -/
def Node.interpolations : Node → List Interpolation
  | .interpolated node => node.interpolations
  | .macroCommand node => node.name.interpolations
  | _ => []

/-- Whether the string has quotes and `$(` stands between them. -/
def StringLiteral.quotesInterpolation (literal : StringLiteral) : Bool :=
  literal.quote != .bare && Parser.holdsInterpolation literal.value.toList

/-- Whether a node has an interpolation, or is a quoted string in which `$(` stands. -/
def Node.showsInterpolation : Node → Bool
  | .string node => node.quotesInterpolation
  | node => !node.interpolations.isEmpty

end Mcfunction
