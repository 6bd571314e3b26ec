import Mcfunction.Tree.Basic

/-!
# Outlines

The outline of a tree is what is left of it when only the places are kept: the span of each node,
with the outlines of the nodes in it in the order in which they stand in the tree. A node that can
be of several forms, such as a value, has one place whatever its form.

The commands of a tree are not all statements: each run clause holds one. `Statement.invocations`
gathers the names and arguments of all of them.
-/

namespace Mcfunction

/-- The place of a node and the places in it. -/
inductive Outline where
  /-- A node with the nodes in it. -/
  | node (span : Span) (parts : List Outline)

namespace Outline

/-- The place of the node itself. -/
def span : Outline → Span
  | node span _ => span

/-- A node without nodes in it. -/
def leaf (span : Span) : Outline :=
  node span []

end Outline

/-! ### NBT -/

/-- The places of interpolated text and of its fragments. -/
def Interpolated.outline (argument : Interpolated) : Outline :=
  .node argument.span (argument.fragments.map fun fragment => .leaf fragment.span)

/-- The places of a key. -/
def NbtKey.outline : NbtKey → Outline
  | .plain literal => .leaf literal.span
  | .interpolated argument => argument.outline

mutual

/-- The places of a value. -/
def NbtValue.outline : NbtValue → Outline
  | .string literal => .leaf literal.span
  | .number number => .leaf number.span
  | .resource location => .leaf location.span
  | .list list => list.outline
  | .compound compound => compound.outline
  | .boolean boolean => .leaf boolean.span
  | .interpolated argument => argument.outline
  | .error node => .leaf node.span

/-- The places of the elements of a list. -/
def NbtItems.outlines : NbtItems → List Outline
  | .pairs pairs => NbtPair.outlines pairs
  | .values values => NbtValue.outlines values

/-- The places of a list. -/
def NbtList.outline : NbtList → Outline
  | ⟨items, span⟩ => .node span items.outlines

/-- The places of a compound. -/
def NbtCompound.outline : NbtCompound → Outline
  | ⟨pairs, span⟩ => .node span (NbtPair.outlines pairs)

/-- The places of a pair. -/
def NbtPair.outline : NbtPair → Outline
  | ⟨key, _, value, span⟩ => .node span [key.outline, value.outline]

/-- The places of several pairs. -/
def NbtPair.outlines : List NbtPair → List Outline
  | [] => []
  | pair :: pairs => pair.outline :: NbtPair.outlines pairs

/-- The places of several values. -/
def NbtValue.outlines : List NbtValue → List Outline
  | [] => []
  | value :: values => value.outline :: NbtValue.outlines values

end

/-- Pairs are outlined one by one. -/
theorem NbtPair.outlines_eq_map (pairs : List NbtPair) :
    NbtPair.outlines pairs = pairs.map NbtPair.outline := by
  induction pairs with
  | nil => rfl
  | cons pair pairs ih => rw [NbtPair.outlines, ih, List.map_cons]

/-- Values are outlined one by one. -/
theorem NbtValue.outlines_eq_map (values : List NbtValue) :
    NbtValue.outlines values = values.map NbtValue.outline := by
  induction values with
  | nil => rfl
  | cons value values ih => rw [NbtValue.outlines, ih, List.map_cons]

/-- The places of a path suffix. -/
def PathSuffix.outline : PathSuffix → Outline
  | .index list => list.outline
  | .filter compound => compound.outline

/-- The places of a path segment. -/
def PathSegment.outline (segment : PathSegment) : Outline :=
  .node segment.span (segment.name.outline :: segment.suffixes.map PathSuffix.outline)

/-- The places of a path. -/
def NbtPath.outline (path : NbtPath) : Outline :=
  .node path.span (path.segments.map PathSegment.outline)

/-- The places of a selector. -/
def Selector.outline (selector : Selector) : Outline :=
  .node selector.span (selector.filter.map NbtList.outline).toList

/-- The places of a coordinate triple. -/
def Coordinates.outline (coordinates : Coordinates) : Outline :=
  .node coordinates.span (coordinates.parts.toList.map fun part => .leaf part.span)

/-! ### Commands -/

mutual

/-- The places of an argument. -/
def Argument.outline : Argument → Outline
  | .coordinates coordinates => coordinates.outline
  | .string literal => .leaf literal.span
  | .number number => .leaf number.span
  | .resource location => .leaf location.span
  | .selector selector => selector.outline
  | .list list => list.outline
  | .compound compound => compound.outline
  | .boolean boolean => .leaf boolean.span
  | .fakePlayer player => .leaf player.span
  | .path path => path.outline
  | .run clause => clause.outline
  | .keyword word => .leaf word.span
  | .interpolated argument => argument.outline
  | .error node => .leaf node.span

/-- The places of a run clause. -/
def RunClause.outline : RunClause → Outline
  | ⟨subcommand, span⟩ => .node span [subcommand.outline]

/-- The places of the command of a run clause. -/
def Subcommand.outline : Subcommand → Outline
  | .command plain => plain.outline
  | .macroCommand line => line.outline

/-- The places of a command. -/
def Command.outline : Command → Outline
  | ⟨name, arguments, span⟩ => .node span (.leaf name.span :: Argument.outlines arguments)

/-- The places of a macro command. -/
def MacroCommand.outline : MacroCommand → Outline
  | ⟨name, arguments, span⟩ => .node span (.leaf name.span :: Argument.outlines arguments)

/-- The places of several arguments. -/
def Argument.outlines : List Argument → List Outline
  | [] => []
  | argument :: arguments => argument.outline :: Argument.outlines arguments

end

/-- The places of a statement. -/
def Statement.outline : Statement → Outline
  | .command plain => plain.outline
  | .macroCommand line => line.outline
  | .comment line => .leaf line.span
  | .error node => .leaf node.span

/-! ### The commands of a tree -/

/-- The place of a command's name, and its arguments. -/
structure Invocation where
  /-- The place of the name. -/
  name : Span
  /-- The arguments in order. -/
  arguments : List Argument

mutual

/-- The commands in an argument. -/
def Argument.invocations : Argument → List Invocation
  | .run clause => clause.invocations
  | .coordinates _ | .string _ | .number _ | .resource _ | .selector _ | .list _ | .compound _
  | .boolean _ | .fakePlayer _ | .path _ | .keyword _ | .interpolated _ | .error _ => []

/-- The commands in a run clause. -/
def RunClause.invocations : RunClause → List Invocation
  | ⟨subcommand, _⟩ => subcommand.invocations

/-- The command of a run clause and the commands in it. -/
def Subcommand.invocations : Subcommand → List Invocation
  | .command plain => plain.invocations
  | .macroCommand line => line.invocations

/-- A command and the commands in it. -/
def Command.invocations : Command → List Invocation
  | ⟨name, arguments, _⟩ => ⟨name.span, arguments⟩ :: Argument.allInvocations arguments

/-- A macro command and the commands in it. -/
def MacroCommand.invocations : MacroCommand → List Invocation
  | ⟨name, arguments, _⟩ => ⟨name.span, arguments⟩ :: Argument.allInvocations arguments

/-- The commands in several arguments. -/
def Argument.allInvocations : List Argument → List Invocation
  | [] => []
  | argument :: arguments => argument.invocations ++ Argument.allInvocations arguments

end

/-- The commands of a statement: itself if it is one, and those in its run clauses. -/
def Statement.invocations : Statement → List Invocation
  | .command plain => plain.invocations
  | .macroCommand line => line.invocations
  | .comment _ => []
  | .error _ => []

end Mcfunction
