import Mcfunction.Proofs.Placeholders.Nodes
import Mcfunction.Tree.Retelling

/-!
# Messages Stand in Placeholders

Only the placeholders of a tree have messages, so two ways to tell new messages make no difference
for a tree if they make none for its placeholders.

## Main results

* `Document.retell_eq`: the retellings of a document.
-/

namespace Mcfunction

/-- The new messages of all placeholders among the nodes are the same. -/
def Agree (m m' : String → String) (nodes : List Node) : Prop :=
  ∀ node ∈ placeholders nodes, m node.message = m' node.message

namespace Agree

variable {m m' : String → String} {nodes nodes' : List Node}

/-- Messages that agree on some nodes agree on all but the first of them. -/
theorem of_cons {node : Node} (h : Agree m m' (node :: nodes)) : Agree m m' nodes := by
  intro found hfound
  refine h found ?_
  rw [placeholders, List.filterMap_cons]
  split
  · exact hfound
  · exact List.mem_cons_of_mem _ hfound

/-- Messages that agree on two lists of nodes agree on each. -/
theorem of_append (h : Agree m m' (nodes ++ nodes')) : Agree m m' nodes ∧ Agree m m' nodes' := by
  simp only [Agree, placeholders_append, List.forall_mem_append] at h
  exact h

/-- Messages that agree on the nodes of several parts agree on each part. -/
theorem of_flatMap {α : Type} {parts : α → List Node} {values : List α}
    (h : Agree m m' (values.flatMap parts)) : ∀ value ∈ values, Agree m m' (parts value) := by
  intro value hvalue node hnode
  refine h node ?_
  rw [placeholders_flatMap, List.mem_flatMap]
  exact ⟨value, hvalue, hnode⟩

end Agree

variable {place : Nat → Nat} {text m m' : String → String}

/-- An error node depends on its own new message only. -/
theorem ErrorNode.retell_eq {node : ErrorNode} (h : m node.message = m' node.message) :
    retell ⟨place, text, m⟩ node = retell ⟨place, text, m'⟩ node :=
  congrArg (ErrorNode.mk · _) h

/-- Values that are told the same one by one are told the same. -/
theorem retell_list_eq {α : Type} [Retell α] {r r' : Retelling} {values : List α}
    (h : ∀ value ∈ values, retell r value = retell r' value) : retell r values = retell r' values :=
  List.map_congr_left h

/-! ### Values -/

mutual

/-- How a value is retold depends on the messages of its placeholders only. -/
theorem NbtValue.retell_eq : (value : NbtValue) → Agree m m' value.nodes →
    retell ⟨place, text, m⟩ value = retell ⟨place, text, m'⟩ value
  | .list list, h => congrArg NbtValue.list (list.retell_eq h.of_cons)
  | .compound compound, h => congrArg NbtValue.compound (compound.retell_eq h.of_cons)
  | .error node, h => congrArg NbtValue.error (node.retell_eq (h node (List.mem_singleton_self _)))
  | .string _, _ | .number _, _ | .resource _, _ | .boolean _, _ | .interpolated _, _ => rfl

/-- How the items of a list are retold depends on the messages of their placeholders only. -/
theorem NbtItems.retell_eq : (items : NbtItems) → Agree m m' items.nodes →
    retell ⟨place, text, m⟩ items = retell ⟨place, text, m'⟩ items
  | .pairs pairs, h => congrArg NbtItems.pairs (NbtPair.allRetell_eq pairs h)
  | .values values, h => congrArg NbtItems.values (NbtValue.allRetell_eq values h)

/-- How a list is retold depends on the messages of its placeholders only. -/
theorem NbtList.retell_eq : (list : NbtList) → Agree m m' list.nodes →
    retell ⟨place, text, m⟩ list = retell ⟨place, text, m'⟩ list
  | ⟨items, _⟩, h => congrArg (NbtList.mk · _) (items.retell_eq h.of_cons)

/-- How a compound is retold depends on the messages of its placeholders only. -/
theorem NbtCompound.retell_eq : (compound : NbtCompound) → Agree m m' compound.nodes →
    retell ⟨place, text, m⟩ compound = retell ⟨place, text, m'⟩ compound
  | ⟨pairs, _⟩, h => congrArg (NbtCompound.mk · _) (NbtPair.allRetell_eq pairs h.of_cons)

/-- How a pair is retold depends on the messages of its placeholders only. -/
theorem NbtPair.retell_eq : (pair : NbtPair) → Agree m m' pair.nodes →
    retell ⟨place, text, m⟩ pair = retell ⟨place, text, m'⟩ pair
  | ⟨key, operator, value, _⟩, h =>
    congrArg (NbtPair.mk (retell ⟨place, text, m⟩ key) operator · _)
      (value.retell_eq h.of_cons.of_append.2)

/-- How pairs are retold depends on the messages of their placeholders only. -/
theorem NbtPair.allRetell_eq : (pairs : List NbtPair) → Agree m m' (NbtPair.allNodes pairs) →
    NbtPair.allRetold ⟨place, text, m⟩ pairs = NbtPair.allRetold ⟨place, text, m'⟩ pairs
  | [], _ => rfl
  | pair :: pairs, h => by
    have hfirst : pair.retold ⟨place, text, m⟩ = pair.retold ⟨place, text, m'⟩ :=
      pair.retell_eq h.of_append.1
    rw [NbtPair.allRetold, hfirst, NbtPair.allRetell_eq pairs h.of_append.2, NbtPair.allRetold]

/-- How values are retold depends on the messages of their placeholders only. -/
theorem NbtValue.allRetell_eq : (values : List NbtValue) →
    Agree m m' (NbtValue.allNodes values) →
    NbtValue.allRetold ⟨place, text, m⟩ values = NbtValue.allRetold ⟨place, text, m'⟩ values
  | [], _ => rfl
  | value :: values, h => by
    have hfirst : value.retold ⟨place, text, m⟩ = value.retold ⟨place, text, m'⟩ :=
      value.retell_eq h.of_append.1
    rw [NbtValue.allRetold, hfirst, NbtValue.allRetell_eq values h.of_append.2, NbtValue.allRetold]

end

/-! ### Paths and selectors -/

/-- How a path suffix is retold depends on the messages of its placeholders only. -/
theorem PathSuffix.retell_eq (suffix : PathSuffix) (h : Agree m m' suffix.nodes) :
    retell ⟨place, text, m⟩ suffix = retell ⟨place, text, m'⟩ suffix := by
  cases suffix with
  | index list => exact congrArg PathSuffix.index (list.retell_eq h)
  | filter compound => exact congrArg PathSuffix.filter (compound.retell_eq h)

/-- How a segment of a path is retold depends on the messages of its placeholders only. -/
theorem PathSegment.retell_eq (segment : PathSegment) (h : Agree m m' segment.nodes) :
    retell ⟨place, text, m⟩ segment = retell ⟨place, text, m'⟩ segment := by
  have hsuffixes := h.of_cons.of_append.2.of_flatMap
  exact congrArg (PathSegment.mk _ · _)
    (retell_list_eq fun suffix hmem => suffix.retell_eq (hsuffixes suffix hmem))

/-- How a path is retold depends on the messages of its placeholders only. -/
theorem NbtPath.retell_eq (path : NbtPath)
    (h : Agree m m' (path.segments.flatMap PathSegment.nodes)) :
    retell ⟨place, text, m⟩ path = retell ⟨place, text, m'⟩ path :=
  congrArg (NbtPath.mk · _)
    (retell_list_eq fun segment hmem => segment.retell_eq (h.of_flatMap segment hmem))

/-- How a selector is retold depends on the messages of its placeholders only. -/
theorem Selector.retell_eq (selector : Selector) (h : Agree m m' selector.nodes) :
    retell ⟨place, text, m⟩ selector = retell ⟨place, text, m'⟩ selector := by
  obtain ⟨target, filter, span⟩ := selector
  cases filter with
  | none => rfl
  | some list =>
      exact congrArg (fun list => Selector.mk target (some list) _) (list.retell_eq h.of_cons)

/-! ### Commands -/

mutual

/-- How an argument is retold depends on the messages of its placeholders only. -/
theorem Argument.retell_eq : (argument : Argument) → Agree m m' argument.nodes →
    retell ⟨place, text, m⟩ argument = retell ⟨place, text, m'⟩ argument
  | .selector selector, h => congrArg Argument.selector (selector.retell_eq h.of_cons)
  | .list list, h => congrArg Argument.list (list.retell_eq h.of_cons)
  | .compound compound, h => congrArg Argument.compound (compound.retell_eq h.of_cons)
  | .path path, h => congrArg Argument.path (path.retell_eq h.of_cons)
  | .run clause, h => congrArg Argument.run (clause.retell_eq h.of_cons)
  | .error node, h => congrArg Argument.error (node.retell_eq (h node (List.mem_singleton_self _)))
  | .coordinates _, _ | .string _, _ | .number _, _ | .resource _, _ | .boolean _, _
  | .fakePlayer _, _ | .keyword _, _ | .interpolated _, _ => rfl

/-- How a run clause is retold depends on the messages of its placeholders only. -/
theorem RunClause.retell_eq : (clause : RunClause) → Agree m m' clause.nodes →
    retell ⟨place, text, m⟩ clause = retell ⟨place, text, m'⟩ clause
  | ⟨subcommand, _⟩, h => congrArg (RunClause.mk · _) (subcommand.retell_eq h.of_cons)

/-- How a subcommand is retold depends on the messages of its placeholders only. -/
theorem Subcommand.retell_eq : (subcommand : Subcommand) → Agree m m' subcommand.nodes →
    retell ⟨place, text, m⟩ subcommand = retell ⟨place, text, m'⟩ subcommand
  | .command plain, h => congrArg Subcommand.command (plain.retell_eq h)
  | .macroCommand line, h => congrArg Subcommand.macroCommand (line.retell_eq h)

/-- How a command is retold depends on the messages of its placeholders only. -/
theorem Command.retell_eq : (command : Command) → Agree m m' command.nodes →
    retell ⟨place, text, m⟩ command = retell ⟨place, text, m'⟩ command
  | ⟨name, arguments, _⟩, h =>
    congrArg (Command.mk (retell ⟨place, text, m⟩ name) · _)
      (Argument.allRetell_eq arguments h.of_cons.of_cons)

/-- How a macro command is retold depends on the messages of its placeholders only. -/
theorem MacroCommand.retell_eq : (command : MacroCommand) → Agree m m' command.nodes →
    retell ⟨place, text, m⟩ command = retell ⟨place, text, m'⟩ command
  | ⟨name, arguments, _⟩, h =>
    congrArg (MacroCommand.mk (retell ⟨place, text, m⟩ name) · _)
      (Argument.allRetell_eq arguments h.of_cons.of_cons)

/-- How arguments are retold depends on the messages of their placeholders only. -/
theorem Argument.allRetell_eq : (arguments : List Argument) →
    Agree m m' (Argument.allNodes arguments) →
    Argument.allRetold ⟨place, text, m⟩ arguments = Argument.allRetold ⟨place, text, m'⟩ arguments
  | [], _ => rfl
  | argument :: arguments, h => by
    have hfirst : argument.retold ⟨place, text, m⟩ = argument.retold ⟨place, text, m'⟩ :=
      argument.retell_eq h.of_append.1
    rw [Argument.allRetold, hfirst, Argument.allRetell_eq arguments h.of_append.2,
      Argument.allRetold]

end

/-- How a statement is retold depends on the messages of its placeholders only. -/
theorem Statement.retell_eq (statement : Statement) (h : Agree m m' statement.nodes) :
    retell ⟨place, text, m⟩ statement = retell ⟨place, text, m'⟩ statement := by
  cases statement with
  | command plain => exact congrArg Statement.command (plain.retell_eq h.of_cons)
  | macroCommand line => exact congrArg Statement.macroCommand (line.retell_eq h.of_cons)
  | comment line => rfl
  | error node =>
      exact congrArg Statement.error (node.retell_eq (h node (List.mem_singleton_self _)))

/-- How a document is retold depends on the messages of its placeholders only. -/
theorem Document.retell_eq (document : Document) (h : Agree m m' document.nodes) :
    retell ⟨place, text, m⟩ document = retell ⟨place, text, m'⟩ document :=
  congrArg Document.mk
    (retell_list_eq fun statement hmem => statement.retell_eq (h.of_flatMap statement hmem))

end Mcfunction
