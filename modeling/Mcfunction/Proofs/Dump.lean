import Mcfunction.Proofs.Dump.Nodes
import Mcfunction.Proofs.LineIndex
import Mcfunction.Proofs.Spans

/-!
# Views of a Document Agree

A document can be written with places and without. Both texts are laid out as nested nodes, and the
one without places is the other one with the places taken out. So both are views of the same nodes,
although the text of the document is at hand only for the one with places, and that one places the
parts of a comment by the text.

No part of the document is left out of a view: each one that has a kind there has a node of its own,
in the order of the parts. The nodes beside these are the parts of names, keys and comments, which
are none of the document's.

What is written as a place are lines and columns. They grow with the offset, so in the view of what
was read from a text the place of each node lies inside the place of the node around it.

## Main results

* `Document.toSexp_shows`: the parts of a document in its view.
* `StatementsAt.toSexp_sound`: in the view of what was read, nodes are inside the nodes around them.
* `Document.sexpTexts_agree`: the two texts of a document.
-/

namespace Mcfunction

/-! ### Nested places -/

/-- Each node ends no earlier than it starts, and no node starts before the one around it or ends
after it. Places are compared as they are written, by line and then by column. -/
inductive Sexp.Nested (index : LineIndex) : Sexp → Prop
  /-- A node with the nodes in it. -/
  | node {field kind span children} :
      toLex (index.lineColumn span.start) ≤ toLex (index.lineColumn span.stop) →
      (∀ child ∈ children,
        toLex (index.lineColumn span.start) ≤ toLex (index.lineColumn child.span.start) ∧
        toLex (index.lineColumn child.span.stop) ≤ toLex (index.lineColumn span.stop)) →
      (∀ child ∈ children, Nested index child) → Nested index (.node field kind span children)

theorem Sexp.Sound.nested {sexp : Sexp} (index : LineIndex) (h : sexp.Sound True) :
    sexp.Nested index := by
  induction h with
  | node _ _ hspan _ ih =>
      obtain ⟨hordered, hchildren⟩ := hspan trivial
      refine .node (index.lineColumn_mono hordered) (fun child hchild => ?_) ih
      obtain ⟨hstart, hstop⟩ := hchildren child hchild
      exact ⟨index.lineColumn_mono hstart, index.lineColumn_mono hstop⟩

theorem roomForTargets_of_readFrom {origin : Cursor} {nodes : List Node}
    (h : ReadFrom origin nodes) : RoomForTargets nodes := by
  intro selector hmem
  obtain ⟨room, c, d, -, hselector⟩ := h _ hmem
  rw [hselector.placed.span_eq]
  exact hselector.offset_add_two_le

/-- The view of a document that was read from a text. -/
theorem StatementsAt.toSexp_sound {room : Nat} {text : String} {document : Document} {sexp : Sexp}
    (h : StatementsAt (ArgumentsAt room) (.start text) document.statements)
    (hsexp : document.toSexp (some text) = .ok sexp) : sexp.Sound True := by
  obtain ⟨d, hend, hrow⟩ := h.row (ArgumentsAt.argumentsPlaced room) (ArgumentsAt.outlined room)
  have hall := hrow.allAt
  have hstop : d.offset = text.utf8ByteSize := Cursor.offset_of_rest_nil hall.le hend
  have hread := h.nodes_readFrom le_rfl
  refine document.toSexp_sound (fun _ => ⟨text, rfl, fun statement hmem => ⟨?_, ?_⟩⟩) hsexp
  · have hpart : statement.outline ∈ document.statements.map Statement.outline :=
      List.mem_map_of_mem hmem
    refine ⟨hall.nested le_rfl _ hpart, Nat.zero_le _, ?_⟩
    exact hstop ▸ hall.stop_le hpart
  · exact roomForTargets_of_readFrom fun node hnode =>
      hread node (List.mem_flatMap.mpr ⟨statement, hmem, hnode⟩)

/-! ### What is shown -/

/-- The kind under which a value is shown. -/
def NbtValue.title : NbtValue → String
  | .string _ => "string"
  | .number _ => "number"
  | .resource _ => "resource_location"
  | .list _ => "nbt_list"
  | .compound _ => "nbt_compound"
  | .boolean _ => "boolean"
  | .interpolated _ => "macro_argument"
  | .error _ => "ERROR"

/-- The kind under which an argument is shown. -/
def Argument.title : Argument → String
  | .coordinates _ => "coordinates"
  | .string _ => "string"
  | .number _ => "number"
  | .resource _ => "resource_location"
  | .selector _ => "selector"
  | .list _ => "nbt_list"
  | .compound _ => "nbt_compound"
  | .boolean _ => "boolean"
  | .fakePlayer _ => "fake_player"
  | .path _ => "nbt_path"
  | .run _ => "run_clause"
  | .keyword _ => "keyword"
  | .interpolated _ => "macro_argument"
  | .error _ => "ERROR"

/-- The kind and the place under which a part of a document is shown. A part that is the form of an
argument or of a value is shown as this one, and what stands in the brackets of a path is shown
without them. -/
def Node.shown? : Node → Option (String × Span)
  | .command node => some ("command", node.span)
  | .macroCommand node => some ("macro_command", node.span)
  | .name span => some ("command_name", span)
  | .comment node => some ("comment", node.span)
  | .error node => some ("ERROR", node.span)
  | .argument node => some (node.title, node.span)
  | .pair node => some ("nbt_pair", node.span)
  | .value node => some (node.title, node.span)
  | .statement _ | .part _ | .string _ | .resource _ | .selector _ | .list _ | .compound _
  | .key _ | .interpolated _ | .segment _ | .subcommand _ => none

/-- The kind and the place that a line tells. -/
def Sexp.Entry.told (entry : Sexp.Entry) : String × Span :=
  (entry.kind, entry.span)

/-- The nodes are shown among those of the views, each by one of its own and all in their order. -/
def Shows (nodes : List Node) (views : List Sexp) : Prop :=
  ∀ depth, (nodes.filterMap Node.shown?).Sublist
    ((Sexp.allEntries depth views).map Sexp.Entry.told)

namespace Shows

variable {nodes nodes' : List Node} {views views' : List Sexp} {node : Node}
  {field : Option String} {kind : String} {span : Span}

/-- Nodes that are not shown by themselves need no view. -/
theorem of_forall (h : ∀ node ∈ nodes, node.shown? = none) : Shows nodes views := by
  intro depth
  rw [List.filterMap_eq_nil_iff.mpr h]
  exact List.nil_sublist _

/-- Where no node is, none is left out. -/
theorem nil : Shows [] views :=
  .of_forall (List.forall_mem_nil _)

/-- What is shown one after the other is shown together. -/
theorem append (h : Shows nodes views) (h' : Shows nodes' views') :
    Shows (nodes ++ nodes') (views ++ views') := by
  have hentries : ∀ depth, Sexp.allEntries depth (views ++ views') =
      Sexp.allEntries depth views ++ Sexp.allEntries depth views' := by
    intro depth
    clear h h'
    induction views with
    | nil => rfl
    | cons view views ih => rw [List.cons_append, Sexp.allEntries, ih, Sexp.allEntries,
        List.append_assoc]
  intro depth
  rw [List.filterMap_append, hentries, List.map_append]
  exact (h depth).append (h' depth)

/-- More views in front show the same nodes. -/
theorem behind (views : List Sexp) (h : Shows nodes views') : Shows nodes (views ++ views') :=
  nil.append h

/-- A node is shown before those in it. -/
theorem cons (hshown : node.shown? = some (kind, span)) (h : Shows nodes views) :
    Shows (node :: nodes) [.node field kind span views] := by
  intro depth
  rw [List.filterMap_cons_some hshown, Sexp.allEntries, Sexp.allEntries, List.append_nil,
    Sexp.entries, List.map_cons]
  exact (h (depth + 1)).cons_cons _

/-- Nodes are shown inside of another one. -/
theorem inside (h : Shows nodes views) : Shows nodes [.node field kind span views] := by
  intro depth
  rw [Sexp.allEntries, Sexp.allEntries, List.append_nil, Sexp.entries, List.map_cons]
  exact (h (depth + 1)).cons _

/-- A node that is not shown by itself makes no difference. -/
theorem skip (hshown : node.shown? = none) (h : Shows nodes views) :
    Shows (node :: nodes) views := by
  intro depth
  rw [List.filterMap_cons_none hshown]
  exact h depth

end Shows

/-- The view that results, if any, shows the nodes. -/
def ShownBy (nodes : List Node) (result : Except Fault Sexp) : Prop :=
  ∀ sexp, result = .ok sexp → Shows nodes [sexp]

/-- The views that result, if any, show the nodes. -/
def ShownByAll (nodes : List Node) (result : Except Fault (List Sexp)) : Prop :=
  ∀ sexps, result = .ok sexps → Shows nodes sexps

namespace ShownByAll

variable {nodes nodes' : List Node}

/-- A view and those after it. -/
theorem cons {result : Except Fault Sexp} {results : Except Fault (List Sexp)}
    (h : ShownBy nodes result) (h' : ShownByAll nodes' results) :
    ShownByAll (nodes ++ nodes') do
      let first ← result
      return first :: (← results) := by
  intro sexps hsexps
  obtain ⟨first, hfirst, hsexps⟩ := Except.bind_eq_ok hsexps
  obtain ⟨rest, hrest, hsexps⟩ := Except.bind_eq_ok hsexps
  cases hsexps
  exact (h first hfirst).append (h' rest hrest)

/-- The views of several pieces. -/
theorem flatten {α : Type} {view : α → Except Fault (List Sexp)} {nodesOf : α → List Node}
    (h : ∀ piece, ShownByAll (nodesOf piece) (view piece)) (pieces : List α) :
    ∀ sexps, pieces.mapM view = .ok sexps → Shows (pieces.flatMap nodesOf) sexps.flatten := by
  induction pieces with
  | nil =>
    rintro _ ⟨⟩
    exact .nil
  | cons piece pieces ih =>
    intro sexps hsexps
    rw [List.mapM_cons] at hsexps
    obtain ⟨first, hfirst, hsexps⟩ := Except.bind_eq_ok hsexps
    obtain ⟨rest, hrest, hsexps⟩ := Except.bind_eq_ok hsexps
    cases hsexps
    exact (h piece first hfirst).append (ih rest hrest)

/-- The views of pieces that have one view each. -/
theorem mapM {α : Type} {view : α → Except Fault Sexp} {nodesOf : α → List Node}
    (h : ∀ piece, ShownBy (nodesOf piece) (view piece)) (pieces : List α) :
    ShownByAll (pieces.flatMap nodesOf) (pieces.mapM view) := by
  induction pieces with
  | nil => exact fun _ _ => .nil
  | cons piece pieces ih =>
    rw [List.mapM_cons]
    exact .cons (h piece) ih

end ShownByAll

/-- A resource location is shown as the node that has it as its form. -/
theorem ResourceLocation.toSexp_shows (location : ResourceLocation) {node : Node}
    (hshown : node.shown? = some ("resource_location", location.span)) :
    ShownBy [node, .resource location] location.toSexp := by
  intro sexp hsexp
  rw [ResourceLocation.toSexp] at hsexp
  obtain ⟨colon, -, hsexp⟩ := Except.bind_eq_ok hsexp
  obtain ⟨space, -, hsexp⟩ := Except.bind_eq_ok hsexp
  obtain ⟨next, -, hsexp⟩ := Except.bind_eq_ok hsexp
  obtain ⟨path, -, hsexp⟩ := Except.bind_eq_ok hsexp
  cases hsexp
  exact .cons hshown (.skip rfl .nil)

/-- A key is shown as a part of its pair or of its path. -/
theorem NbtKey.shows (key : NbtKey) (views : List Sexp) : Shows key.nodes views := by
  cases key <;> exact .skip rfl (.skip rfl .nil)

mutual

/-- A value is shown, and what is in it too. -/
theorem NbtValue.toSexp_shows : ∀ value : NbtValue, ShownBy value.nodes value.toSexp
  | .number _ | .boolean _ | .error _ => by
    rw [NbtValue.toSexp]
    rintro _ ⟨⟩
    exact .cons rfl .nil
  | .string _ => by
    rw [NbtValue.toSexp]
    rintro _ ⟨⟩
    exact .cons rfl (.skip rfl .nil)
  | .interpolated _ => by
    rw [NbtValue.toSexp]
    rintro _ ⟨⟩
    exact .cons rfl (.skip rfl .nil)
  | .resource location => by
    rw [NbtValue.toSexp]
    exact location.toSexp_shows rfl
  | .list list => by
    rw [NbtValue.toSexp]
    exact NbtList.toSexp_shows list rfl
  | .compound compound => by
    rw [NbtValue.toSexp]
    exact NbtCompound.toSexp_shows compound rfl

/-- The elements of a list are shown. -/
theorem NbtItems.toSexps_shows : ∀ items : NbtItems, ShownByAll items.nodes items.toSexps
  | .pairs elements => by
    rw [NbtItems.toSexps, NbtItems.nodes]
    exact NbtPair.toSexps_shows elements
  | .values elements => by
    rw [NbtItems.toSexps, NbtItems.nodes]
    exact NbtValue.toSexps_shows elements

/-- A list is shown as the node that has it as its form, and its elements are shown. -/
theorem NbtList.toSexp_shows : ∀ (list : NbtList) {node : Node},
    node.shown? = some ("nbt_list", list.span) → ShownBy (node :: list.nodes) list.toSexp
  | ⟨items, span⟩, node, hshown => by
    rw [NbtList.toSexp, NbtList.nodes]
    intro sexp hsexp
    obtain ⟨inner, hinner, rfl⟩ := Except.map_eq_ok hsexp
    exact .cons hshown (.skip rfl (NbtItems.toSexps_shows items inner hinner))

/-- A compound is shown as the node that has it as its form, and its pairs are shown. -/
theorem NbtCompound.toSexp_shows : ∀ (compound : NbtCompound) {node : Node},
    node.shown? = some ("nbt_compound", compound.span) →
      ShownBy (node :: compound.nodes) compound.toSexp
  | ⟨pairs, span⟩, node, hshown => by
    rw [NbtCompound.toSexp, NbtCompound.nodes]
    intro sexp hsexp
    obtain ⟨inner, hinner, rfl⟩ := Except.map_eq_ok hsexp
    exact .cons hshown (.skip rfl (NbtPair.toSexps_shows pairs inner hinner))

/-- A pair is shown, and what is in its value too. -/
theorem NbtPair.toSexp_shows : ∀ pair : NbtPair, ShownBy pair.nodes pair.toSexp
  | ⟨key, operator, value, span⟩ => by
    rw [NbtPair.toSexp, NbtPair.nodes]
    intro sexp hsexp
    obtain ⟨inner, hinner, rfl⟩ := Except.map_eq_ok hsexp
    refine .cons rfl ((key.shows [_]).append (.inside ?_))
    exact NbtValue.toSexp_shows value inner hinner

/-- Pairs are shown one after the other. -/
theorem NbtPair.toSexps_shows : ∀ pairs : List NbtPair,
    ShownByAll (NbtPair.allNodes pairs) (NbtPair.toSexps pairs)
  | [] => by
    rw [NbtPair.allNodes]
    exact fun _ _ => .nil
  | pair :: pairs => by
    rw [NbtPair.toSexps, NbtPair.allNodes]
    exact .cons (NbtPair.toSexp_shows pair) (NbtPair.toSexps_shows pairs)

/-- Values are shown one after the other. -/
theorem NbtValue.toSexps_shows : ∀ values : List NbtValue,
    ShownByAll (NbtValue.allNodes values) (NbtValue.toSexps values)
  | [] => by
    rw [NbtValue.allNodes]
    exact fun _ _ => .nil
  | value :: values => by
    rw [NbtValue.toSexps, NbtValue.allNodes]
    exact .cons (NbtValue.toSexp_shows value) (NbtValue.toSexps_shows values)

end

/-- The elements of a list are shown in it. -/
theorem NbtList.toSexp_shows_within (list : NbtList) : ShownBy list.nodes list.toSexp := by
  obtain ⟨items, span⟩ := list
  intro sexp hsexp
  rw [NbtList.toSexp] at hsexp
  obtain ⟨inner, hinner, rfl⟩ := Except.map_eq_ok hsexp
  exact .skip rfl (.inside (items.toSexps_shows inner hinner))

/-- What stands in the brackets of a path is shown. -/
theorem PathSuffix.toSexps_shows (suffix : PathSuffix) :
    ShownByAll suffix.nodes suffix.toSexps := by
  rcases suffix with ⟨items, span⟩ | ⟨pairs, span⟩
  · exact fun sexps hsexps => .skip rfl (items.toSexps_shows sexps hsexps)
  · exact fun sexps hsexps => .skip rfl (NbtPair.toSexps_shows pairs sexps hsexps)

/-- What stands in the brackets of a segment is shown. -/
theorem PathSegment.toSexps_shows (segment : PathSegment) :
    ShownByAll segment.nodes segment.toSexps := by
  intro sexps hsexps
  rw [PathSegment.toSexps] at hsexps
  obtain ⟨suffixes, hsuffixes, hsexps⟩ := Except.bind_eq_ok hsexps
  cases hsexps
  refine .skip rfl ((segment.name.shows [_]).append ?_)
  exact ShownByAll.flatten PathSuffix.toSexps_shows segment.suffixes suffixes hsuffixes

/-- What stands in the brackets of a path is shown in the path. -/
theorem NbtPath.toSexp_shows (path : NbtPath) :
    ShownBy (.argument (.path path) :: path.segments.flatMap PathSegment.nodes) path.toSexp := by
  intro sexp hsexp
  rw [NbtPath.toSexp] at hsexp
  obtain ⟨segments, hsegments, hsexp⟩ := Except.bind_eq_ok hsexp
  cases hsexp
  refine .cons rfl ?_
  exact ShownByAll.flatten PathSegment.toSexps_shows path.segments segments hsegments

/-- A selector is shown, and what is in its filter too. -/
theorem Selector.toSexp_shows (selector : Selector) :
    ShownBy (.argument (.selector selector) :: selector.nodes) selector.toSexp := by
  intro sexp hsexp
  rw [Selector.toSexp] at hsexp
  obtain ⟨stop, -, hsexp⟩ := Except.bind_eq_ok hsexp
  rw [Selector.nodes]
  rcases hfilter : selector.filter with _ | filter
  · simp only [hfilter] at hsexp
    cases hsexp
    exact .cons rfl (.skip rfl .nil)
  · simp only [hfilter] at hsexp
    obtain ⟨inner, hinner, hsexp⟩ := Except.bind_eq_ok hsexp
    cases hsexp
    exact .cons rfl (.skip rfl (.behind [_] (filter.toSexp_shows_within inner hinner)))

mutual

/-- An argument is shown, and what is in it too. -/
theorem Argument.toSexp_shows : ∀ argument : Argument, ShownBy argument.nodes argument.toSexp
  | .number _ | .boolean _ | .fakePlayer _ | .keyword _ | .error _ => by
    rw [Argument.toSexp]
    rintro _ ⟨⟩
    exact .cons rfl .nil
  | .string _ => by
    rw [Argument.toSexp]
    rintro _ ⟨⟩
    exact .cons rfl (.skip rfl .nil)
  | .interpolated _ => by
    rw [Argument.toSexp]
    rintro _ ⟨⟩
    exact .cons rfl (.skip rfl .nil)
  | .coordinates coordinates => by
    rw [Argument.toSexp]
    rintro _ ⟨⟩
    refine .cons rfl (.of_forall fun node hnode => ?_)
    obtain ⟨part, -, rfl⟩ := List.mem_map.mp hnode
    rfl
  | .resource location => by
    rw [Argument.toSexp]
    exact location.toSexp_shows rfl
  | .selector selector => by
    rw [Argument.toSexp]
    exact selector.toSexp_shows
  | .list list => by
    rw [Argument.toSexp]
    exact list.toSexp_shows rfl
  | .compound compound => by
    rw [Argument.toSexp]
    exact compound.toSexp_shows rfl
  | .path path => by
    rw [Argument.toSexp]
    exact path.toSexp_shows
  | .run clause => by
    rw [Argument.toSexp]
    exact RunClause.toSexp_shows clause

/-- A run clause is shown, and its subcommand too. -/
theorem RunClause.toSexp_shows : ∀ clause : RunClause,
    ShownBy (.argument (.run clause) :: clause.nodes) clause.toSexp
  | ⟨subcommand, span⟩ => by
    intro sexp hsexp
    rw [RunClause.toSexp] at hsexp
    obtain ⟨inner, hinner, rfl⟩ := Except.map_eq_ok hsexp
    exact .cons rfl (.skip rfl (Subcommand.toSexp_shows _ subcommand inner hinner))

/-- A subcommand is shown as a command. -/
theorem Subcommand.toSexp_shows (field : Option String) : ∀ subcommand : Subcommand,
    ShownBy subcommand.nodes (subcommand.toSexp field)
  | .command node => by
    rw [Subcommand.toSexp]
    exact Command.toSexp_shows field node
  | .macroCommand node => by
    rw [Subcommand.toSexp]
    exact MacroCommand.toSexp_shows field node

/-- A command is shown, with its name and its arguments. -/
theorem Command.toSexp_shows (field : Option String) : ∀ command : Command,
    ShownBy command.nodes (command.toSexp field)
  | ⟨name, arguments, span⟩ => by
    intro sexp hsexp
    rw [Command.toSexp] at hsexp
    obtain ⟨inner, hinner, rfl⟩ := Except.map_eq_ok hsexp
    exact .cons rfl (.append (.cons rfl .nil) (Argument.toSexps_shows arguments inner hinner))

/-- So is a macro command. -/
theorem MacroCommand.toSexp_shows (field : Option String) : ∀ command : MacroCommand,
    ShownBy command.nodes (command.toSexp field)
  | ⟨name, arguments, span⟩ => by
    intro sexp hsexp
    rw [MacroCommand.toSexp] at hsexp
    obtain ⟨inner, hinner, rfl⟩ := Except.map_eq_ok hsexp
    exact .cons rfl (.append (.cons rfl .nil) (Argument.toSexps_shows arguments inner hinner))

/-- Arguments are shown one after the other. -/
theorem Argument.toSexps_shows : ∀ arguments : List Argument,
    ShownByAll (Argument.allNodes arguments) (Argument.toSexps arguments)
  | [] => by
    rw [Argument.allNodes]
    exact fun _ _ => .nil
  | argument :: arguments => by
    rw [Argument.toSexps, Argument.allNodes]
    exact .cons (Argument.toSexp_shows argument) (Argument.toSexps_shows arguments)

end

/-- A comment is shown. -/
theorem Comment.toSexp_shows {source : Option String} (comment : Comment) :
    ShownBy [.comment comment] (comment.toSexp source) := by
  intro sexp hsexp
  rw [Comment.toSexp] at hsexp
  obtain ⟨stop, -, hsexp⟩ := Except.bind_eq_ok hsexp
  obtain ⟨body, -, hsexp⟩ := Except.bind_eq_ok hsexp
  dsimp only at hsexp
  split at hsexp
  · obtain ⟨content, -, hsexp⟩ := Except.bind_eq_ok hsexp
    cases hsexp
    exact .cons rfl .nil
  · obtain ⟨content, -, hsexp⟩ := Except.bind_eq_ok hsexp
    cases hsexp
    exact .cons rfl .nil
  · obtain ⟨key, -, hsexp⟩ := Except.bind_eq_ok hsexp
    obtain ⟨value, -, hsexp⟩ := Except.bind_eq_ok hsexp
    cases hsexp
    exact .cons rfl .nil

/-- A statement is shown, and what is in it too. -/
theorem Statement.toSexp_shows (source : Option String) (statement : Statement) :
    ShownBy statement.nodes (statement.toSexp source) := by
  cases statement with
  | command node => exact fun sexp hsexp => .skip rfl (node.toSexp_shows none sexp hsexp)
  | macroCommand node => exact fun sexp hsexp => .skip rfl (node.toSexp_shows none sexp hsexp)
  | comment node => exact fun sexp hsexp => .skip rfl (node.toSexp_shows sexp hsexp)
  | error node =>
    rintro _ ⟨⟩
    exact .skip rfl (.cons rfl .nil)

/-- In the view of a document all its parts are shown, in their order. -/
theorem Document.toSexp_shows {document : Document} {source : Option String} {sexp : Sexp}
    (h : document.toSexp source = .ok sexp) : Shows document.nodes [sexp] := by
  rw [Document.toSexp] at h
  obtain ⟨statements, hstatements, h⟩ := Except.bind_eq_ok h
  cases h
  exact .inside (ShownByAll.mapM (Statement.toSexp_shows source) _ statements hstatements)

/-! ### The two texts -/

/-- The two texts of a document, and the views that they show: `tree` in the text without places
and `placed` in the one with places in `source`. -/
structure Document.Shown (document : Document) (source plain ranged : String)
    (tree placed : Sexp) : Prop where
  /-- The view without places. -/
  tree_eq : document.toSexp none = .ok tree
  /-- The view with places. -/
  placed_eq : document.toSexp (some source) = .ok placed
  /-- Both views have the same nodes and fields. -/
  same : tree.unplaced = placed.unplaced
  /-- The parts of the document are shown in them. -/
  parts : Shows document.nodes [tree]
  /-- The text without places has a line for each node. -/
  plain_laid : tree.Laid none plain
  /-- So has the text with places. -/
  ranged_laid : placed.Laid (some (.ofText source)) ranged
  /-- Without its places, the one text is the other. -/
  stripped : String.ofList (Sexp.stripRanges 0 ranged.toList) = plain
  /-- If the document is what was read from `source`, its places are nested. -/
  nested : ∀ options result, Document.parseTolerant source options = .ok result →
    result.document = document → placed.Nested (.ofText source)

/-- If a document can be written without places and with places, then the two texts agree. -/
theorem Document.sexpTexts_agree {document : Document} {source plain ranged : String}
    (hplain : document.sexpText = .ok plain)
    (hranged : document.sexpTextWithRanges source = .ok ranged) :
    ∃ tree placed, document.Shown source plain ranged tree placed := by
  obtain ⟨tree, htree, rfl⟩ := Except.map_eq_ok hplain
  obtain ⟨placed, hplaced, rfl⟩ := Except.map_eq_ok hranged
  have htreeNamed := document.toSexp_named htree
  have hplacedNamed := document.toSexp_named hplaced
  have hsame := document.toSexp_unplaced htree hplaced
  refine ⟨tree, placed, ⟨htree, hplaced, hsame, Document.toSexp_shows htree, ?_, ?_, ?_, ?_⟩⟩
  · exact Sexp.laid_render htreeNamed
  · exact Sexp.laid_render hplacedNamed
  · rw [Sexp.stripRanges_render _ hplacedNamed, String.ofList_toList, Sexp.render_congr hsame]
  · intro options result hresult hdocument
    obtain ⟨read, log, next, hrun, hstatements⟩ := Document.exists_run_tolerant source options
    rw [Document.parseTolerant, hrun] at hresult
    cases hresult
    obtain rfl : read = document := hdocument
    exact (hstatements.toSexp_sound hplaced).nested _

/-- The text of a directive and a command that follows it, `#> a: b` and `x @e c:d`. -/
def directiveText : String :=
  "\n".intercalate
    ["(source_file",
      "  (comment",
      "    tag: (tag_directive)",
      "    key: (key_directive)",
      "    content: (content_directive))",
      "  (command",
      "    (command_name)",
      "    (selector",
      "      (selector_target))",
      "    (resource_location",
      "      namespace: (namespace)",
      "      identifier: (identifier))))"]

/-- The same text with places. -/
def directiveTextWithRanges : String :=
  "\n".intercalate
    ["(source_file [0, 0] - [1, 8]",
      "  (comment [0, 0] - [0, 7]",
      "    tag: (tag_directive [0, 0] - [0, 2])",
      "    key: (key_directive [0, 3] - [0, 4])",
      "    content: (content_directive [0, 6] - [0, 7]))",
      "  (command [1, 0] - [1, 8]",
      "    (command_name [1, 0] - [1, 1])",
      "    (selector [1, 2] - [1, 4]",
      "      (selector_target [1, 2] - [1, 4]))",
      "    (resource_location [1, 5] - [1, 8]",
      "      namespace: (namespace [1, 5] - [1, 6])",
      "      identifier: (identifier [1, 7] - [1, 8]))))"]

/-- The two texts of a directive and a command that follows it. -/
theorem sexpTexts_of_directive : ∃ result tree placed,
    Document.parseTolerant "#> a: b\nx @e c:d" {} = .ok result ∧
      result.document.sexpText = .ok directiveText ∧
      result.document.sexpTextWithRanges "#> a: b\nx @e c:d" = .ok directiveTextWithRanges ∧
      result.document.Shown "#> a: b\nx @e c:d" directiveText directiveTextWithRanges
        tree placed := by
  obtain ⟨document, log, next, hrun, -⟩ := Document.exists_run_tolerant "#> a: b\nx @e c:d" {}
  have hresult : Document.parseTolerant "#> a: b\nx @e c:d" {} =
      .ok ⟨document, diagnosticsOf log⟩ := by
    rw [Document.parseTolerant, hrun]
  have hplain : (Document.parseTolerant "#> a: b\nx @e c:d" {}).map
      (·.document.sexpText) = .ok (.ok directiveText) := by
    decide +kernel
  have hranged : (Document.parseTolerant "#> a: b\nx @e c:d" {}).map
      (·.document.sexpTextWithRanges "#> a: b\nx @e c:d") =
        .ok (.ok directiveTextWithRanges) := by
    decide +kernel
  rw [hresult] at hplain hranged
  have hplain := Except.ok.inj hplain
  have hranged := Except.ok.inj hranged
  obtain ⟨tree, placed, hshown⟩ := Document.sexpTexts_agree hplain hranged
  exact ⟨_, tree, placed, hresult, hplain, hranged, hshown⟩

end Mcfunction
