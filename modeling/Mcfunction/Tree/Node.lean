import Mcfunction.Tree.Leaf

/-!
# The Nodes of a Tree

All parts of a document as values of one type, `Node`, and the walk over them in pre-order:
each part before the parts in it, and those in the order in which they stand in the source.

A part that can be of several forms comes as the form-neutral node first (`argument`, `value`,
`key`) and as the node of its form after it, if the form has anything to tell.
-/

namespace Mcfunction

/-- A part of a document. -/
inductive Node where
  /-- A statement. -/
  | statement (statement : Statement)
  /-- A command. -/
  | command (command : Command)
  /-- A macro command. -/
  | macroCommand (command : MacroCommand)
  /-- The name of a command. -/
  | name (span : Span)
  /-- A comment. -/
  | comment (comment : Comment)
  /-- The placeholder of a statement. -/
  | error (node : ErrorNode)
  /-- An argument. -/
  | argument (argument : Argument)
  /-- A part of a coordinate triple. -/
  | part (part : CoordinatePart)
  /-- A string. -/
  | string (literal : StringLiteral)
  /-- A resource location. -/
  | resource (location : ResourceLocation)
  /-- A selector. -/
  | selector (selector : Selector)
  /-- A list. -/
  | list (list : NbtList)
  /-- A compound. -/
  | compound (compound : NbtCompound)
  /-- A pair. -/
  | pair (pair : NbtPair)
  /-- A key. -/
  | key (key : NbtKey)
  /-- A value. -/
  | value (value : NbtValue)
  /-- Text with interpolations. -/
  | interpolated (argument : Interpolated)
  /-- A segment of a path. -/
  | segment (segment : PathSegment)
  /-- The command of a run clause. -/
  | subcommand (subcommand : Subcommand)

/-- Where a part is. -/
def Node.span : Node → Span
  | .statement node => node.span
  | .command node => node.span
  | .macroCommand node => node.span
  | .name span => span
  | .comment node => node.span
  | .error node => node.span
  | .argument node => node.span
  | .part node => node.span
  | .string node => node.span
  | .resource node => node.span
  | .selector node => node.span
  | .list node => node.span
  | .compound node => node.span
  | .pair node => node.span
  | .key node => node.span
  | .value node => node.span
  | .interpolated node => node.span
  | .segment node => node.span
  | .subcommand node => node.span

/-- A key and its form. -/
def NbtKey.nodes (key : NbtKey) : List Node :=
  match key with
  | .plain literal => [.key key, .string literal]
  | .interpolated argument => [.key key, .interpolated argument]

mutual

/-- A value and the parts in it. -/
def NbtValue.nodes : NbtValue → List Node
  | .string literal => [.value (.string literal), .string literal]
  | .number number => [.value (.number number)]
  | .resource location => [.value (.resource location), .resource location]
  | .list list => .value (.list list) :: list.nodes
  | .compound compound => .value (.compound compound) :: compound.nodes
  | .boolean boolean => [.value (.boolean boolean)]
  | .interpolated argument => [.value (.interpolated argument), .interpolated argument]
  | .error node => [.value (.error node)]

/-- The elements of a list and the parts in them. -/
def NbtItems.nodes : NbtItems → List Node
  | .pairs elements => NbtPair.allNodes elements
  | .values elements => NbtValue.allNodes elements

/-- A list and the parts in it. -/
def NbtList.nodes : NbtList → List Node
  | ⟨items, span⟩ => .list ⟨items, span⟩ :: items.nodes

/-- A compound and the parts in it. -/
def NbtCompound.nodes : NbtCompound → List Node
  | ⟨pairs, span⟩ => .compound ⟨pairs, span⟩ :: NbtPair.allNodes pairs

/-- A pair and the parts in it. -/
def NbtPair.nodes : NbtPair → List Node
  | ⟨key, operator, value, span⟩ =>
    .pair ⟨key, operator, value, span⟩ :: key.nodes ++ value.nodes

/-- Several pairs and the parts in them. -/
def NbtPair.allNodes : List NbtPair → List Node
  | [] => []
  | pair :: pairs => pair.nodes ++ NbtPair.allNodes pairs

/-- Several values and the parts in them. -/
def NbtValue.allNodes : List NbtValue → List Node
  | [] => []
  | value :: values => value.nodes ++ NbtValue.allNodes values

end

/-- A path suffix and the parts in it. -/
def PathSuffix.nodes : PathSuffix → List Node
  | .index list => list.nodes
  | .filter compound => compound.nodes

/-- A path segment and the parts in it. -/
def PathSegment.nodes (segment : PathSegment) : List Node :=
  .segment segment :: segment.name.nodes ++ segment.suffixes.flatMap PathSuffix.nodes

/-- A selector and the parts in it. -/
def Selector.nodes (selector : Selector) : List Node :=
  .selector selector :: (selector.filter.map NbtList.nodes).getD []

mutual

/-- An argument and the parts in it. -/
def Argument.nodes : Argument → List Node
  | .coordinates coordinates =>
    .argument (.coordinates coordinates) :: coordinates.parts.toList.map .part
  | .string literal => [.argument (.string literal), .string literal]
  | .number number => [.argument (.number number)]
  | .resource location => [.argument (.resource location), .resource location]
  | .selector selector => .argument (.selector selector) :: selector.nodes
  | .list list => .argument (.list list) :: list.nodes
  | .compound compound => .argument (.compound compound) :: compound.nodes
  | .boolean boolean => [.argument (.boolean boolean)]
  | .fakePlayer player => [.argument (.fakePlayer player)]
  | .path path => .argument (.path path) :: path.segments.flatMap PathSegment.nodes
  | .run clause => .argument (.run clause) :: clause.nodes
  | .keyword word => [.argument (.keyword word)]
  | .interpolated argument => [.argument (.interpolated argument), .interpolated argument]
  | .error node => [.argument (.error node)]

/-- The parts of a run clause. -/
def RunClause.nodes : RunClause → List Node
  | ⟨subcommand, _⟩ => .subcommand subcommand :: subcommand.nodes

/-- The command of a run clause and the parts in it. -/
def Subcommand.nodes : Subcommand → List Node
  | .command plain => plain.nodes
  | .macroCommand line => line.nodes

/-- A command and the parts in it. -/
def Command.nodes : Command → List Node
  | ⟨name, arguments, span⟩ =>
    .command ⟨name, arguments, span⟩ :: .name name.span :: Argument.allNodes arguments

/-- A macro command and the parts in it. -/
def MacroCommand.nodes : MacroCommand → List Node
  | ⟨name, arguments, span⟩ =>
    .macroCommand ⟨name, arguments, span⟩ :: .name name.span :: Argument.allNodes arguments

/-- Several arguments and the parts in them. -/
def Argument.allNodes : List Argument → List Node
  | [] => []
  | argument :: arguments => argument.nodes ++ Argument.allNodes arguments

end

/-- A statement and the parts in it. -/
def Statement.nodes : Statement → List Node
  | .command plain => .statement (.command plain) :: plain.nodes
  | .macroCommand line => .statement (.macroCommand line) :: line.nodes
  | .comment line => [.statement (.comment line), .comment line]
  | .error node => [.statement (.error node), .error node]

/-- All parts of a document in pre-order. -/
def Document.nodes (document : Document) : List Node :=
  document.statements.flatMap Statement.nodes

end Mcfunction
