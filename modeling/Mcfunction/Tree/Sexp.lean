import Mcfunction.Cursor
import Mcfunction.LineIndex
import Mcfunction.Tree.Basic

/-!
# S-Expressions

A compact view of a document as nested nodes with a kind, an optional field name and a span.
Brackets, commas, quotes and the words of fixed syntax are left out, and what stands in the
brackets of a path belongs to the path itself.

`Document.toSexp` builds the nodes and `Sexp.render` writes them, one on a line, each line
indented below the node that holds it, with or without the lines and columns where they are.
The source text is needed only to place the parts of a comment exactly; nodes and fields do
not depend on it. Spans that contradict the text they hold, or leave no room for it below the
largest offset, are refused.
-/

namespace Mcfunction

/-- A node of the view. -/
inductive Sexp where
  /-- A node with the name of its field, its kind, its place and the nodes in it. -/
  | node (field : Option String) (kind : String) (span : Span) (children : List Sexp)

namespace Sexp

/-- A node that stands under no field name. -/
def plain (kind : String) (span : Span) (children : List Sexp) : Sexp :=
  .node none kind span children

/-- A node that holds no nodes. -/
def leaf (kind : String) (span : Span) : Sexp :=
  .node none kind span []

/-- A node under a field name that holds no nodes. -/
def fieldLeaf (field kind : String) (span : Span) : Sexp :=
  .node (some field) kind span []

/-- The place of a node as text. -/
def rangeText (index : LineIndex) (span : Span) : String :=
  let (startLine, startColumn) := index.lineColumn span.start
  let (stopLine, stopColumn) := index.lineColumn span.stop
  s!" [{startLine}, {startColumn}] - [{stopLine}, {stopColumn}]"

/-- A node up to the nodes in it. -/
def head (index : Option LineIndex) (field : Option String) (kind : String) (span : Span) :
    String :=
  let label :=
    match field with
    | some field => field ++ ": "
    | none => ""
  let range :=
    match index with
    | some index => rangeText index span
    | none => ""
  label ++ "(" ++ kind ++ range

/-- The line break before a node at a level of indentation. -/
def newline (level : Nat) : String :=
  String.ofList ('\n' :: List.replicate (2 * level) ' ')

mutual

/-- A node at a level of indentation. -/
def renderAt (index : Option LineIndex) (level : Nat) : Sexp → String
  | .node field kind span children =>
    head index field kind span ++ renderAll index (level + 1) children ++ ")"

/-- Nodes at a level of indentation, each on a line of its own. -/
def renderAll (index : Option LineIndex) (level : Nat) : List Sexp → String
  | [] => ""
  | child :: children =>
    newline level ++ renderAt index level child ++ renderAll index level children

end

/-- The text of a node, with lines and columns if an index is given. -/
def render (index : Option LineIndex) (sexp : Sexp) : String :=
  renderAt index 0 sexp

end Sexp

/-! ### Leaves -/

/-- The node of a resource location, with its two parts. -/
def ResourceLocation.toSexp (location : ResourceLocation) : Except Fault Sexp := do
  let colon ← offsetPast location.span.start location.space.utf8ByteSize
  let space ← Span.between location.span.start colon
  let path ← Span.between (← offsetPast colon 1) location.span.stop
  return .plain "resource_location" location.span
    [.fieldLeaf "namespace" "namespace" space, .fieldLeaf "identifier" "identifier" path]

/-- The node of a fragment; text inside quotes has none. -/
def Fragment.toSexp? : Fragment → Option Sexp
  | .literal run => some (.leaf "macro_fragment" run.span)
  | .interpolation piece => some (.leaf "macro_interpolation" piece.span)
  | .quoted _ => none

/-- The node of text with interpolations. -/
def Interpolated.toSexp (argument : Interpolated) : Sexp :=
  .plain "macro_argument" argument.span (argument.fragments.filterMap Fragment.toSexp?)

/-- The node of a key; `bare` is the kind of a bare word. -/
def NbtKey.toSexp (bare : String) : NbtKey → Sexp
  | .plain literal =>
    .leaf (if literal.quote = .bare then bare else "string") literal.span
  | .interpolated argument => argument.toSexp

/-! ### NBT -/

mutual

/-- The node of a value. -/
def NbtValue.toSexp : NbtValue → Except Fault Sexp
  | .string node => .ok (.leaf "string" node.span)
  | .number node => .ok (.leaf "number" node.span)
  | .resource node => node.toSexp
  | .list node => node.toSexp
  | .compound node => node.toSexp
  | .boolean node => .ok (.leaf "boolean" node.span)
  | .interpolated node => .ok node.toSexp
  | .error node => .ok (.leaf "ERROR" node.span)

/-- The nodes of the elements of a list. -/
def NbtItems.toSexps : NbtItems → Except Fault (List Sexp)
  | .pairs elements => NbtPair.toSexps elements
  | .values elements => NbtValue.toSexps elements

/-- The node of a list. -/
def NbtList.toSexp : NbtList → Except Fault Sexp
  | ⟨items, span⟩ => items.toSexps.map (.plain "nbt_list" span)

/-- The node of a compound. -/
def NbtCompound.toSexp : NbtCompound → Except Fault Sexp
  | ⟨pairs, span⟩ => (NbtPair.toSexps pairs).map (.plain "nbt_compound" span)

/-- The node of a pair. -/
def NbtPair.toSexp : NbtPair → Except Fault Sexp
  | ⟨key, _, value, span⟩ =>
    value.toSexp.map fun inner =>
      .plain "nbt_pair" span
        [.node (some "key") "nbt_key" key.span [key.toSexp "string"],
          .node (some "value") "nbt_value" value.span [inner]]

/-- The nodes of several pairs. -/
def NbtPair.toSexps : List NbtPair → Except Fault (List Sexp)
  | [] => .ok []
  | pair :: pairs => do
    let first ← pair.toSexp
    return first :: (← NbtPair.toSexps pairs)

/-- The nodes of several values. -/
def NbtValue.toSexps : List NbtValue → Except Fault (List Sexp)
  | [] => .ok []
  | value :: values => do
    let first ← value.toSexp
    return first :: (← NbtValue.toSexps values)

end

/-- The nodes of what stands in the brackets of a path suffix. -/
def PathSuffix.toSexps : PathSuffix → Except Fault (List Sexp)
  | .index list => list.items.toSexps
  | .filter compound => NbtPair.toSexps compound.pairs

/-- The nodes of a segment: its name and what stands in its brackets. -/
def PathSegment.toSexps (segment : PathSegment) : Except Fault (List Sexp) := do
  let suffixes ← segment.suffixes.mapM PathSuffix.toSexps
  return segment.name.toSexp "keyword" :: suffixes.flatten

/-- The node of a path. -/
def NbtPath.toSexp (path : NbtPath) : Except Fault Sexp := do
  let segments ← path.segments.mapM PathSegment.toSexps
  return .plain "nbt_path" path.span segments.flatten

/-- The node of a selector. -/
def Selector.toSexp (selector : Selector) : Except Fault Sexp := do
  let start := selector.span.start
  let target := Sexp.leaf "selector_target" ⟨start, ← offsetPast start 2⟩
  match selector.filter with
  | none => return .plain "selector" selector.span [target]
  | some filter => return .plain "selector" selector.span [target, ← filter.toSexp]

/-! ### Commands and statements -/

mutual

/-- The node of an argument. -/
def Argument.toSexp : Argument → Except Fault Sexp
  | .coordinates node => .ok (.leaf "coordinates" node.span)
  | .string node => .ok (.leaf "string" node.span)
  | .number node => .ok (.leaf "number" node.span)
  | .resource node => node.toSexp
  | .selector node => node.toSexp
  | .list node => node.toSexp
  | .compound node => node.toSexp
  | .boolean node => .ok (.leaf "boolean" node.span)
  | .fakePlayer node => .ok (.leaf "fake_player" node.span)
  | .path node => node.toSexp
  | .run node => node.toSexp
  | .keyword node => .ok (.leaf "keyword" node.span)
  | .interpolated node => .ok node.toSexp
  | .error node => .ok (.leaf "ERROR" node.span)

/-- The node of a run clause. -/
def RunClause.toSexp : RunClause → Except Fault Sexp
  | ⟨subcommand, span⟩ =>
    (subcommand.toSexp (some "subcommand")).map fun inner => .plain "run_clause" span [inner]

/-- The node of a subcommand under a field name. -/
def Subcommand.toSexp (field : Option String) : Subcommand → Except Fault Sexp
  | .command node => node.toSexp field
  | .macroCommand node => node.toSexp field

/-- The node of a command. -/
def Command.toSexp (field : Option String) : Command → Except Fault Sexp
  | ⟨name, arguments, span⟩ =>
    (Argument.toSexps arguments).map fun inner =>
      .node field "command" span (.leaf "command_name" name.span :: inner)

/-- The node of a macro command. -/
def MacroCommand.toSexp (field : Option String) : MacroCommand → Except Fault Sexp
  | ⟨name, arguments, span⟩ =>
    (Argument.toSexps arguments).map fun inner =>
      .node field "macro_command" span (.leaf "command_name" name.span :: inner)

/-- The nodes of several arguments. -/
def Argument.toSexps : List Argument → Except Fault (List Sexp)
  | [] => .ok []
  | argument :: arguments => do
    let first ← argument.toSexp
    return first :: (← Argument.toSexps arguments)

end

/-- The span without the spaces and tabs at its front, as far as the source shows them. -/
def Span.trimStart (source : Option String) (span : Span) : Except Fault Span :=
  match source.bind span.slice? with
  | some text =>
    let blanks := (text.toList.takeWhile fun c => c == ' ' || c == '\t').length
    Span.between (span.start + blanks) span.stop
  | none => .ok span

/-- The offset of the first colon in a span, if the source shows one. -/
def Span.colon? (source : Option String) (span : Span) : Option Nat :=
  match source.bind span.slice? with
  | some text =>
    let chars := text.toList
    if chars.contains ':' then some (span.start + byteWidth (chars.takeWhile (· != ':')))
    else none
  | none => none

/-- A part of a comment under a field name, if the comment has it. -/
def Comment.part (source : Option String) (field kind : String) (text : Option String)
    (start stop : Nat) : Except Fault (List Sexp) := do
  if text.isSome then
    let place ← Span.between start stop
    return [.fieldLeaf field kind (← place.trimStart source)]
  else return []

/-- The node of a comment. -/
def Comment.toSexp (source : Option String) (comment : Comment) : Except Fault Sexp := do
  let start := comment.span.start
  let tagEnd ← offsetPast start comment.tag.utf8ByteSize
  let body ← Span.between tagEnd comment.span.stop
  let tag (kind : String) := Sexp.fieldLeaf "tag" kind ⟨start, tagEnd⟩
  match comment.kind with
  | .normal =>
    let content ←
      Comment.part source "content" "comment_content" comment.content body.start body.stop
    return .plain "comment" comment.span (tag "comment_tag" :: content)
  | .important =>
    let content ←
      Comment.part source "content" "content_important" comment.content body.start body.stop
    return .plain "comment" comment.span (tag "tag_important" :: content)
  | .directive =>
    let colon := body.colon? source
    let key ←
      Comment.part source "key" "key_directive" comment.directiveKey
        body.start (colon.getD body.stop)
    let value ←
      Comment.part source "content" "content_directive" comment.directiveValue
        ((colon.map (· + 1)).getD body.start) body.stop
    return .plain "comment" comment.span (tag "tag_directive" :: (key ++ value))

/-- The node of a statement. -/
def Statement.toSexp (source : Option String) : Statement → Except Fault Sexp
  | .command node => node.toSexp none
  | .macroCommand node => node.toSexp none
  | .comment node => node.toSexp source
  | .error node => .ok (.leaf "ERROR" node.span)

/-- The node of a document. -/
def Document.toSexp (source : Option String) (document : Document) : Except Fault Sexp := do
  let statements ← document.statements.mapM (Statement.toSexp source)
  let stop := (source.map String.utf8ByteSize).getD 0
  return .plain "source_file" ⟨0, stop⟩ statements

/-- The document as text, without places. -/
def Document.sexpText (document : Document) : Except Fault String :=
  (document.toSexp none).map (Sexp.render none)

/-- The document as text, with the lines and columns of its source. -/
def Document.sexpTextWithRanges (document : Document) (source : String) : Except Fault String :=
  (document.toSexp (some source)).map (Sexp.render (some (.ofText source)))

end Mcfunction
