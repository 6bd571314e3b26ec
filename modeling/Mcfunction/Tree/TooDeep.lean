import Mcfunction.Tree.Depth
import Mcfunction.Tree.Node

/-!
# What Nests Too Deep

The parts of a tree that a limit on nesting cuts off, and which of them recovery skips whole.

With `room` levels left, a value or an argument that nests at all is cut off if there are none;
otherwise its containers and its run clause leave one level less for what is in them. So the parts
cut off are the outermost ones that nest too deep, and what is in them is not looked at.

Recovery looks for the brackets, quotes and continuations of the text that it skips. It goes wrong
where they mean something else to the parser: in interpolated text outside quotes, which may hold
brackets and quotes of its own. And it stops behind the bracket that closes the first container, so
of a path it skips no name behind a container.
-/

namespace Mcfunction

/-! ### What is in a part -/

/-- The values directly in a list. -/
def NbtList.members (list : NbtList) : List NbtValue :=
  match list.items with
  | .pairs pairs => pairs.map NbtPair.value
  | .values values => values

/-- The values directly in a compound. -/
def NbtCompound.members (compound : NbtCompound) : List NbtValue :=
  compound.pairs.map NbtPair.value

/-- The values directly in a container. -/
def NbtValue.members : NbtValue → List NbtValue
  | .list node => node.members
  | .compound node => node.members
  | .string _ | .number _ | .resource _ | .boolean _ | .interpolated _ | .error _ => []

/-- The values directly in a path suffix. -/
def PathSuffix.members : PathSuffix → List NbtValue
  | .index list => list.members
  | .filter compound => compound.members

/-- The values directly in the containers of a path. -/
def NbtPath.members (path : NbtPath) : List NbtValue :=
  (path.segments.flatMap PathSegment.suffixes).flatMap PathSuffix.members

/-- The values directly in the containers of an argument. -/
def Argument.members : Argument → List NbtValue
  | .selector node => (node.filter.map NbtList.members).getD []
  | .list node => node.members
  | .compound node => node.members
  | .path node => node.members
  | .coordinates _ | .string _ | .number _ | .resource _ | .boolean _ | .fakePlayer _ | .run _
  | .keyword _ | .interpolated _ | .error _ => []

/-- The arguments of the command of a run clause. -/
def Subcommand.arguments : Subcommand → List Argument
  | .command plain => plain.arguments
  | .macroCommand line => line.arguments

/-- The arguments of the command that an argument runs. -/
def Argument.arguments : Argument → List Argument
  | .run clause => clause.subcommand.arguments
  | .coordinates _ | .string _ | .number _ | .resource _ | .selector _ | .list _ | .compound _
  | .boolean _ | .fakePlayer _ | .path _ | .keyword _ | .interpolated _ | .error _ => []

/-- The arguments of a statement. -/
def Statement.arguments : Statement → List Argument
  | .command plain => plain.arguments
  | .macroCommand line => line.arguments
  | .comment _ | .error _ => []

/-! ### What is cut off -/

/-- The outermost parts of a value that nest too deep with `room` levels left. -/
def NbtValue.tooDeep : Nat → NbtValue → List Node
  | 0, node => if node.nest = 0 then [] else [.value node]
  | room + 1, node => node.members.flatMap (NbtValue.tooDeep room)

/-- The outermost parts of an argument that nest too deep with `room` levels left. -/
def Argument.tooDeep : Nat → Argument → List Node
  | 0, node => if node.nest = 0 then [] else [.argument node]
  | room + 1, node =>
    node.members.flatMap (NbtValue.tooDeep room) ++ node.arguments.flatMap (Argument.tooDeep room)

/-- The outermost parts of a document that nest too deep for a limit. -/
def Document.tooDeep (limit : Nat) (document : Document) : List Node :=
  (document.statements.flatMap Statement.arguments).flatMap (Argument.tooDeep limit)

/-! ### Where nothing is cut off -/

variable {n : Nat}

/-- Pairs nest at most `n` deep if and only if each of their values does. -/
theorem NbtPair.allNest_le_iff {pairs : List NbtPair} :
    NbtPair.allNest pairs ≤ n ↔ ∀ inner ∈ pairs.map NbtPair.value, inner.nest ≤ n := by
  rw [NbtPair.allNest_eq_deepest, deepest_le_iff, List.forall_mem_map]
  exact forall₂_congr fun ⟨_, _, _, _⟩ _ => by rw [NbtPair.nest]

/-- A list nests one deeper than its members. -/
theorem NbtList.nest_le_succ_iff {list : NbtList} :
    list.nest ≤ n + 1 ↔ ∀ inner ∈ list.members, inner.nest ≤ n := by
  obtain ⟨items, span⟩ := list
  rw [NbtList.nest, Nat.add_le_add_iff_right]
  cases items with
  | pairs pairs => exact NbtPair.allNest_le_iff
  | values values =>
      rw [NbtItems.nest, NbtValue.allNest_eq_deepest, deepest_le_iff]
      rfl

/-- A compound nests one deeper than its members. -/
theorem NbtCompound.nest_le_succ_iff {compound : NbtCompound} :
    compound.nest ≤ n + 1 ↔ ∀ inner ∈ compound.members, inner.nest ≤ n := by
  obtain ⟨pairs, span⟩ := compound
  rw [NbtCompound.nest, Nat.add_le_add_iff_right]
  exact NbtPair.allNest_le_iff

/-- A value nests one deeper than its members. -/
theorem NbtValue.nest_le_succ_iff {value : NbtValue} :
    value.nest ≤ n + 1 ↔ ∀ inner ∈ value.members, inner.nest ≤ n := by
  cases value with
  | list node => exact NbtList.nest_le_succ_iff
  | compound node => exact NbtCompound.nest_le_succ_iff
  | _ => simp [NbtValue.nest, NbtValue.members]

/-- A path suffix nests one deeper than its members. -/
theorem PathSuffix.nest_le_succ_iff {suffix : PathSuffix} :
    suffix.nest ≤ n + 1 ↔ ∀ inner ∈ suffix.members, inner.nest ≤ n := by
  cases suffix with
  | index node => exact NbtList.nest_le_succ_iff
  | filter node => exact NbtCompound.nest_le_succ_iff

/-- A path nests one deeper than its members. -/
theorem NbtPath.nest_le_succ_iff {path : NbtPath} :
    path.nest ≤ n + 1 ↔ ∀ inner ∈ path.members, inner.nest ≤ n := by
  simp only [NbtPath.nest, PathSegment.nest, deepest_le_iff, NbtPath.members,
    List.forall_mem_flatMap, PathSuffix.nest_le_succ_iff]

/-- Arguments nest at most `n` deep if and only if each of them does. -/
theorem Argument.allNest_le_iff {arguments : List Argument} :
    Argument.allNest arguments ≤ n ↔ ∀ inner ∈ arguments, inner.nest ≤ n := by
  induction arguments with
  | nil => simp [Argument.allNest]
  | cons argument arguments ih =>
      rw [Argument.allNest, Nat.max_le, ih, List.forall_mem_cons]

/-- A command nests as deep as its arguments. -/
theorem Command.nest_le_iff {command : Command} :
    command.nest ≤ n ↔ ∀ inner ∈ command.arguments, inner.nest ≤ n := by
  obtain ⟨name, arguments, span⟩ := command
  rw [Command.nest]
  exact Argument.allNest_le_iff

/-- A macro command nests as deep as its arguments. -/
theorem MacroCommand.nest_le_iff {command : MacroCommand} :
    command.nest ≤ n ↔ ∀ inner ∈ command.arguments, inner.nest ≤ n := by
  obtain ⟨name, arguments, span⟩ := command
  rw [MacroCommand.nest]
  exact Argument.allNest_le_iff

/-- A run clause nests one deeper than the arguments of its subcommand. -/
theorem RunClause.nest_le_succ_iff {clause : RunClause} :
    clause.nest ≤ n + 1 ↔ ∀ inner ∈ clause.subcommand.arguments, inner.nest ≤ n := by
  obtain ⟨subcommand, span⟩ := clause
  rw [RunClause.nest, Nat.add_le_add_iff_right]
  cases subcommand with
  | command plain =>
      rw [Subcommand.nest]
      exact Command.nest_le_iff
  | macroCommand line =>
      rw [Subcommand.nest]
      exact MacroCommand.nest_le_iff

/-- A selector nests one deeper than the members of its filter. -/
theorem Selector.nest_le_succ_iff {selector : Selector} :
    selector.nest ≤ n + 1 ↔
      ∀ inner ∈ (selector.filter.map NbtList.members).getD [], inner.nest ≤ n := by
  rw [Selector.nest]
  cases selector.filter with
  | none => simp
  | some filter => exact NbtList.nest_le_succ_iff

/-- An argument nests one deeper than its members and the arguments in its run clause. -/
theorem Argument.nest_le_succ_iff {argument : Argument} :
    argument.nest ≤ n + 1 ↔ (∀ inner ∈ argument.members, inner.nest ≤ n) ∧
      ∀ inner ∈ argument.arguments, inner.nest ≤ n := by
  cases argument
  all_goals
    simp [Argument.nest, Argument.members, Argument.arguments, Selector.nest_le_succ_iff,
      NbtList.nest_le_succ_iff, NbtCompound.nest_le_succ_iff, NbtPath.nest_le_succ_iff,
      RunClause.nest_le_succ_iff]

/-- A statement nests as deep as its arguments. -/
theorem Statement.nest_le_iff {statement : Statement} :
    statement.nest ≤ n ↔ ∀ inner ∈ statement.arguments, inner.nest ≤ n := by
  cases statement with
  | command plain => exact Command.nest_le_iff
  | macroCommand line => exact MacroCommand.nest_le_iff
  | _ => simp [Statement.nest, Statement.arguments]

/-- A value that nests no deeper is not cut off. -/
theorem NbtValue.tooDeep_eq_nil_iff {room : Nat} {value : NbtValue} :
    value.tooDeep room = [] ↔ value.nest ≤ room := by
  induction room generalizing value with
  | zero => simp [NbtValue.tooDeep]
  | succ room ih =>
      simp only [NbtValue.tooDeep, List.flatMap_eq_nil_iff, ih, NbtValue.nest_le_succ_iff]

/-- An argument has no node that is too deep if and only if it nests within the room. -/
theorem Argument.tooDeep_eq_nil_iff {room : Nat} {argument : Argument} :
    argument.tooDeep room = [] ↔ argument.nest ≤ room := by
  induction room generalizing argument with
  | zero => simp [Argument.tooDeep]
  | succ room ih =>
      simp only [Argument.tooDeep, List.append_eq_nil_iff, List.flatMap_eq_nil_iff, ih,
        NbtValue.tooDeep_eq_nil_iff, Argument.nest_le_succ_iff]

/-- A document has no node that is too deep if and only if it nests within the limit. -/
theorem Document.tooDeep_eq_nil_iff {limit : Nat} {document : Document} :
    document.tooDeep limit = [] ↔ document.nest ≤ limit := by
  simp only [Document.tooDeep, List.flatMap_eq_nil_iff, Argument.tooDeep_eq_nil_iff,
    List.forall_mem_flatMap, Document.nest, deepest_le_iff, Statement.nest_le_iff]

/-! ### What is skipped whole -/

/-- Brackets and quotes. -/
def isBracketOrQuote (c : Char) : Bool :=
  match c with
  | '[' | ']' | '{' | '}' | '"' | '\'' => true
  | _ => false

/-- Whether a piece of interpolated text has neither brackets nor quotes. -/
def Fragment.isTransparent (fragment : Fragment) : Bool :=
  !fragment.source.toList.any isBracketOrQuote

/-- Whether the brackets and quotes in the text of a node are those that the parser takes for such,
which those of interpolated text outside quotes are not. Of the text of a placeholder nothing is
known. -/
def Node.isTransparent : Node → Bool
  | .interpolated node => node.quote != .bare || node.fragments.all Fragment.isTransparent
  | .value (.error _) => false
  | _ => true

/-- Whether recovery skips the whole of a part that nests too deep, and nothing else. A run clause
is skipped with all that is left of its statement. Of a path only the last segment may have
containers. -/
def Node.isSkippedWhole : Node → Bool
  | .value node => node.nodes.all Node.isTransparent
  | .argument (.run _) => true
  | .argument (.path node) =>
    node.segments.dropLast.all (·.suffixes.isEmpty) &&
      (node.segments.flatMap PathSegment.nodes).all Node.isTransparent
  | .argument node => node.nodes.all Node.isTransparent
  | _ => false

end Mcfunction
