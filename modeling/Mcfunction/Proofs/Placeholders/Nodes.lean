import Mcfunction.Tree.Node
import Mcfunction.Tree.Placeholder

/-!
# The Placeholders in a Tree

The placeholders of a tree are found on the walk over its nodes, and so in the order of the
source. `hasErrors` looks for them along a way of its own, through the parts that can hold one;
the two agree.

## Main results

* `Document.hasErrors_iff`: a document has errors if its nodes have placeholders among them.
-/

namespace Mcfunction

/-- The placeholder that a node is, if it is one. -/
def Node.placeholder? : Node → Option ErrorNode
  | .statement (.error node) => some node
  | .argument (.error node) => some node
  | .value (.error node) => some node
  | _ => none

/-- The placeholders among nodes, in order. -/
def placeholders (nodes : List Node) : List ErrorNode :=
  nodes.filterMap Node.placeholder?

/-- No nodes have no placeholders. -/
@[simp] theorem placeholders_nil : placeholders [] = [] := rfl

/-- The placeholders of two lists of nodes are those of the first and those of the second. -/
@[simp] theorem placeholders_append (nodes nodes' : List Node) :
    placeholders (nodes ++ nodes') = placeholders nodes ++ placeholders nodes' :=
  List.filterMap_append

/-- A node that is no placeholder adds none. -/
theorem placeholders_cons {node : Node} (nodes : List Node) (h : node.placeholder? = none) :
    placeholders (node :: nodes) = placeholders nodes :=
  List.filterMap_cons_none h

/-- The placeholders of the nodes of several parts are those of the parts in turn. -/
theorem placeholders_flatMap {α : Type} (nodes : α → List Node) (parts : List α) :
    placeholders (parts.flatMap nodes) = parts.flatMap fun part => placeholders (nodes part) :=
  List.filterMap_flatMap

/-! ### The parts of each form -/

/-- Keys have no placeholders. -/
@[simp] theorem NbtKey.placeholders_nodes (key : NbtKey) : placeholders key.nodes = [] := by
  cases key <;> rfl

/-- The nodes of pairs are those of each pair in turn. -/
theorem NbtPair.allNodes_eq_flatMap (pairs : List NbtPair) :
    NbtPair.allNodes pairs = pairs.flatMap NbtPair.nodes := by
  induction pairs with
  | nil => rfl
  | cons pair pairs ih => rw [NbtPair.allNodes, ih, List.flatMap_cons]

/-- The nodes of values are those of each value in turn. -/
theorem NbtValue.allNodes_eq_flatMap (values : List NbtValue) :
    NbtValue.allNodes values = values.flatMap NbtValue.nodes := by
  induction values with
  | nil => rfl
  | cons value values ih => rw [NbtValue.allNodes, ih, List.flatMap_cons]

/-- The nodes of arguments are those of each argument in turn. -/
theorem Argument.allNodes_eq_flatMap (arguments : List Argument) :
    Argument.allNodes arguments = arguments.flatMap Argument.nodes := by
  induction arguments with
  | nil => rfl
  | cons argument arguments ih => rw [Argument.allNodes, ih, List.flatMap_cons]

/-- The placeholders of a pair are those of its value. -/
theorem NbtPair.placeholders_nodes (pair : NbtPair) :
    placeholders pair.nodes = placeholders pair.value.nodes := by
  obtain ⟨key, operator, value, span⟩ := pair
  rw [NbtPair.nodes, List.cons_append, placeholders_cons _ rfl, placeholders_append,
    key.placeholders_nodes, List.nil_append]

/-- The placeholders of a list are those of its items. -/
theorem NbtList.placeholders_nodes (list : NbtList) :
    placeholders list.nodes = placeholders list.items.nodes := by
  obtain ⟨items, span⟩ := list
  exact placeholders_cons _ rfl

/-- The placeholders of items that are pairs are those of the pairs in turn. -/
theorem NbtItems.placeholders_nodes_pairs (pairs : List NbtPair) :
    placeholders (NbtItems.pairs pairs).nodes =
      pairs.flatMap fun pair => placeholders pair.nodes := by
  rw [NbtItems.nodes, NbtPair.allNodes_eq_flatMap, placeholders_flatMap]

/-- The placeholders of items that are values are those of the values in turn. -/
theorem NbtItems.placeholders_nodes_values (values : List NbtValue) :
    placeholders (NbtItems.values values).nodes =
      values.flatMap fun value => placeholders value.nodes := by
  rw [NbtItems.nodes, NbtValue.allNodes_eq_flatMap, placeholders_flatMap]

/-- The placeholders of a compound are those of its pairs in turn. -/
theorem NbtCompound.placeholders_nodes (compound : NbtCompound) :
    placeholders compound.nodes =
      compound.pairs.flatMap fun pair => placeholders pair.nodes := by
  obtain ⟨pairs, span⟩ := compound
  rw [NbtCompound.nodes, placeholders_cons _ rfl, NbtPair.allNodes_eq_flatMap,
    placeholders_flatMap]

/-- The placeholders of a segment of a path are those of its suffixes in turn. -/
theorem PathSegment.placeholders_nodes (segment : PathSegment) :
    placeholders segment.nodes =
      segment.suffixes.flatMap fun suffix => placeholders suffix.nodes := by
  rw [PathSegment.nodes, List.cons_append, placeholders_cons _ rfl, placeholders_append,
    segment.name.placeholders_nodes, List.nil_append, placeholders_flatMap]

/-- The placeholders of a command are those of its arguments in turn. -/
theorem Command.placeholders_nodes (command : Command) :
    placeholders command.nodes =
      command.arguments.flatMap fun argument => placeholders argument.nodes := by
  obtain ⟨name, arguments, span⟩ := command
  rw [Command.nodes, placeholders_cons _ rfl, placeholders_cons _ rfl,
    Argument.allNodes_eq_flatMap, placeholders_flatMap]

/-- The placeholders of a macro command are those of its arguments in turn. -/
theorem MacroCommand.placeholders_nodes (command : MacroCommand) :
    placeholders command.nodes =
      command.arguments.flatMap fun argument => placeholders argument.nodes := by
  obtain ⟨name, arguments, span⟩ := command
  rw [MacroCommand.nodes, placeholders_cons _ rfl, placeholders_cons _ rfl,
    Argument.allNodes_eq_flatMap, placeholders_flatMap]

/-! ### Whether there are any -/

/-- Two lists of nodes hold a placeholder if one of them does. -/
theorem isEmpty_placeholders_append {nodes nodes' : List Node} {hasErrors hasErrors' : Bool}
    (h : (placeholders nodes).isEmpty = !hasErrors)
    (h' : (placeholders nodes').isEmpty = !hasErrors') :
    (placeholders (nodes ++ nodes')).isEmpty = !(hasErrors || hasErrors') := by
  rw [placeholders_append, Bool.not_or, ← h, ← h']
  cases placeholders nodes <;> rfl

mutual

/-- A value has errors if and only if a placeholder is among its nodes. -/
theorem NbtValue.isEmpty_placeholders :
    ∀ value : NbtValue, (placeholders value.nodes).isEmpty = !value.hasErrors
  | .list list => list.isEmpty_placeholders
  | .compound compound => compound.isEmpty_placeholders
  | .string _ | .number _ | .resource _ | .boolean _ | .interpolated _ | .error _ => rfl

/-- The items of a list have errors if and only if a placeholder is among their nodes. -/
theorem NbtItems.isEmpty_placeholders :
    ∀ items : NbtItems, (placeholders items.nodes).isEmpty = !items.hasErrors
  | .pairs pairs => NbtPair.allIsEmpty_placeholders pairs
  | .values values => NbtValue.allIsEmpty_placeholders values

/-- A list has errors if and only if a placeholder is among its nodes. -/
theorem NbtList.isEmpty_placeholders :
    ∀ list : NbtList, (placeholders list.nodes).isEmpty = !list.hasErrors
  | ⟨items, _⟩ => items.isEmpty_placeholders

/-- A compound has errors if and only if a placeholder is among its nodes. -/
theorem NbtCompound.isEmpty_placeholders :
    ∀ compound : NbtCompound, (placeholders compound.nodes).isEmpty = !compound.hasErrors
  | ⟨pairs, _⟩ => NbtPair.allIsEmpty_placeholders pairs

/-- A pair has errors if and only if a placeholder is among its nodes. -/
theorem NbtPair.isEmpty_placeholders :
    ∀ pair : NbtPair, (placeholders pair.nodes).isEmpty = !pair.hasErrors
  | ⟨key, operator, value, span⟩ => by
      rw [NbtPair.placeholders_nodes]
      exact value.isEmpty_placeholders

/-- Some pair has errors if and only if a placeholder is among their nodes. -/
theorem NbtPair.allIsEmpty_placeholders :
    ∀ pairs : List NbtPair, (placeholders (NbtPair.allNodes pairs)).isEmpty =
      !NbtPair.anyErrors pairs
  | [] => rfl
  | pair :: pairs => by
      rw [NbtPair.allNodes, NbtPair.anyErrors]
      exact isEmpty_placeholders_append pair.isEmpty_placeholders
        (NbtPair.allIsEmpty_placeholders pairs)

/-- Some value has errors if and only if a placeholder is among their nodes. -/
theorem NbtValue.allIsEmpty_placeholders :
    ∀ values : List NbtValue, (placeholders (NbtValue.allNodes values)).isEmpty =
      !NbtValue.anyErrors values
  | [] => rfl
  | value :: values => by
      rw [NbtValue.allNodes, NbtValue.anyErrors]
      exact isEmpty_placeholders_append value.isEmpty_placeholders
        (NbtValue.allIsEmpty_placeholders values)

end

/-- If this is so for each part, it is so for several parts. -/
theorem isEmpty_placeholders_flatMap {α : Type} {nodes : α → List Node} {hasErrors : α → Bool}
    (h : ∀ part, (placeholders (nodes part)).isEmpty = !hasErrors part) (parts : List α) :
    (placeholders (parts.flatMap nodes)).isEmpty = !parts.any hasErrors := by
  induction parts with
  | nil => rfl
  | cons part parts ih =>
      rw [List.flatMap_cons, List.any_cons]
      exact isEmpty_placeholders_append (h part) ih

/-- A path suffix has errors if and only if a placeholder is among its nodes. -/
theorem PathSuffix.isEmpty_placeholders (suffix : PathSuffix) :
    (placeholders suffix.nodes).isEmpty = !suffix.hasErrors := by
  cases suffix with
  | index list => exact list.isEmpty_placeholders
  | filter compound => exact compound.isEmpty_placeholders

/-- A path has errors if and only if a placeholder is among its nodes. -/
theorem NbtPath.isEmpty_placeholders (path : NbtPath) :
    (placeholders (path.segments.flatMap PathSegment.nodes)).isEmpty = !path.hasErrors := by
  refine isEmpty_placeholders_flatMap (fun segment => ?_) path.segments
  rw [segment.placeholders_nodes, ← placeholders_flatMap]
  exact isEmpty_placeholders_flatMap PathSuffix.isEmpty_placeholders segment.suffixes

/-- A selector has errors if and only if a placeholder is among its nodes. -/
theorem Selector.isEmpty_placeholders (selector : Selector) :
    (placeholders selector.nodes).isEmpty = !selector.filter.any NbtList.hasErrors := by
  obtain ⟨target, filter, span⟩ := selector
  cases filter with
  | none => rfl
  | some list => exact list.isEmpty_placeholders

mutual

/-- An argument has errors if and only if a placeholder is among its nodes. -/
theorem Argument.isEmpty_placeholders :
    ∀ argument : Argument, (placeholders argument.nodes).isEmpty = !argument.hasErrors
  | .selector selector => selector.isEmpty_placeholders
  | .list list => list.isEmpty_placeholders
  | .compound compound => compound.isEmpty_placeholders
  | .path path => path.isEmpty_placeholders
  | .run clause => clause.isEmpty_placeholders
  | .coordinates _ | .string _ | .number _ | .resource _ | .boolean _ | .fakePlayer _
  | .keyword _ | .interpolated _ | .error _ => rfl

/-- A run clause has errors if and only if a placeholder is among its nodes. -/
theorem RunClause.isEmpty_placeholders :
    ∀ clause : RunClause, (placeholders clause.nodes).isEmpty = !clause.hasErrors
  | ⟨subcommand, _⟩ => subcommand.isEmpty_placeholders

/-- A subcommand has errors if and only if a placeholder is among its nodes. -/
theorem Subcommand.isEmpty_placeholders :
    ∀ subcommand : Subcommand, (placeholders subcommand.nodes).isEmpty = !subcommand.hasErrors
  | .command plain => plain.isEmpty_placeholders
  | .macroCommand line => line.isEmpty_placeholders

/-- A command has errors if and only if a placeholder is among its nodes. -/
theorem Command.isEmpty_placeholders :
    ∀ command : Command, (placeholders command.nodes).isEmpty = !command.hasErrors
  | ⟨_, arguments, _⟩ => Argument.allIsEmpty_placeholders arguments

/-- A macro command has errors if and only if a placeholder is among its nodes. -/
theorem MacroCommand.isEmpty_placeholders :
    ∀ command : MacroCommand, (placeholders command.nodes).isEmpty = !command.hasErrors
  | ⟨_, arguments, _⟩ => Argument.allIsEmpty_placeholders arguments

/-- Some argument has errors if and only if a placeholder is among their nodes. -/
theorem Argument.allIsEmpty_placeholders :
    ∀ arguments : List Argument, (placeholders (Argument.allNodes arguments)).isEmpty =
      !Argument.anyErrors arguments
  | [] => rfl
  | argument :: arguments => by
      rw [Argument.allNodes, Argument.anyErrors]
      exact isEmpty_placeholders_append argument.isEmpty_placeholders
        (Argument.allIsEmpty_placeholders arguments)

end

/-- A statement has errors if and only if a placeholder is among its nodes. -/
theorem Statement.isEmpty_placeholders (statement : Statement) :
    (placeholders statement.nodes).isEmpty = !statement.hasErrors := by
  cases statement with
  | command plain => exact plain.isEmpty_placeholders
  | macroCommand line => exact line.isEmpty_placeholders
  | comment line => rfl
  | error node => rfl

/-- A document has errors if its nodes have placeholders among them. -/
theorem Document.hasErrors_iff (document : Document) :
    document.hasErrors = true ↔ placeholders document.nodes ≠ [] := by
  have h := isEmpty_placeholders_flatMap Statement.isEmpty_placeholders document.statements
  rw [Document.nodes, ne_eq, ← List.isEmpty_iff, h]
  simp [Document.hasErrors]

end Mcfunction
