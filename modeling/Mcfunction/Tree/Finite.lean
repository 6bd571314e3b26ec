import Mcfunction.Tree.Node

/-!
# Infinite Numbers in Trees

Numbers stand in three places of a tree: in number nodes, in the absolute parts of a coordinate
triple, and as the offsets of its other parts. The first two must be there, an offset may be
missing.

JSON has no infinities. `withFiniteOffsets` is a tree without the offsets that JSON cannot
write.
-/

namespace Mcfunction

/-- The number that a part of a document must have. -/
def Node.number? : Node → Option Binary64
  | .argument (.number number) => some number.value
  | .value (.number number) => some number.value
  | .part (.absolute place _ _) => some place
  | _ => none

/-- The number that a part of a document has, but might be without. -/
def Node.offset? : Node → Option Binary64
  | .part (.relative offset _) => offset
  | .part (.localTo offset _) => offset
  | _ => none

/-- The numbers in a document that must be there. -/
def Document.numbers (document : Document) : List Binary64 :=
  document.nodes.filterMap Node.number?

/-- The offsets in a document. -/
def Document.offsets (document : Document) : List Binary64 :=
  document.nodes.filterMap Node.offset?

/-- The part without an infinite offset. -/
def CoordinatePart.withFiniteOffsets : CoordinatePart → CoordinatePart
  | .absolute value suffix span => .absolute value suffix span
  | .relative offset span => .relative (offset.filter Binary64.isFinite) span
  | .localTo offset span => .localTo (offset.filter Binary64.isFinite) span

/-- The triple without infinite offsets. -/
def Coordinates.withFiniteOffsets (coordinates : Coordinates) : Coordinates :=
  { coordinates with parts := coordinates.parts.map CoordinatePart.withFiniteOffsets }

mutual

/-- The argument without infinite offsets. -/
def Argument.withFiniteOffsets : Argument → Argument
  | .coordinates coordinates => .coordinates coordinates.withFiniteOffsets
  | .run clause => .run clause.withFiniteOffsets
  | .string literal => .string literal
  | .number number => .number number
  | .resource location => .resource location
  | .selector selector => .selector selector
  | .list list => .list list
  | .compound compound => .compound compound
  | .boolean boolean => .boolean boolean
  | .fakePlayer player => .fakePlayer player
  | .path path => .path path
  | .keyword word => .keyword word
  | .interpolated argument => .interpolated argument
  | .error node => .error node

/-- The run clause without infinite offsets. -/
def RunClause.withFiniteOffsets : RunClause → RunClause
  | ⟨subcommand, span⟩ => ⟨subcommand.withFiniteOffsets, span⟩

/-- The subcommand without infinite offsets. -/
def Subcommand.withFiniteOffsets : Subcommand → Subcommand
  | .command plain => .command plain.withFiniteOffsets
  | .macroCommand line => .macroCommand line.withFiniteOffsets

/-- The command without infinite offsets. -/
def Command.withFiniteOffsets : Command → Command
  | ⟨name, arguments, span⟩ => ⟨name, Argument.allWithFiniteOffsets arguments, span⟩

/-- The macro command without infinite offsets. -/
def MacroCommand.withFiniteOffsets : MacroCommand → MacroCommand
  | ⟨name, arguments, span⟩ => ⟨name, Argument.allWithFiniteOffsets arguments, span⟩

/-- Several arguments without infinite offsets. -/
def Argument.allWithFiniteOffsets : List Argument → List Argument
  | [] => []
  | argument :: arguments =>
    argument.withFiniteOffsets :: Argument.allWithFiniteOffsets arguments

end

/-- The statement without infinite offsets. -/
def Statement.withFiniteOffsets : Statement → Statement
  | .command plain => .command plain.withFiniteOffsets
  | .macroCommand line => .macroCommand line.withFiniteOffsets
  | .comment line => .comment line
  | .error node => .error node

/-- The document without infinite offsets. -/
def Document.withFiniteOffsets (document : Document) : Document :=
  ⟨document.statements.map Statement.withFiniteOffsets⟩

end Mcfunction
