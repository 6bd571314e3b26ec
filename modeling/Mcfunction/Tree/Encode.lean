import Mcfunction.Diagnostic.Basic
import Mcfunction.Json.Basic
import Mcfunction.Tree.Basic

/-!
# Trees as JSON

The JSON form of trees and diagnostics. A node is an object of its parts with its span last;
parts that are absent are left out, and a number that is not finite becomes `null`. A node of a
type with several forms says which one it is in a first member, `kind`.
-/

namespace Mcfunction

namespace Json

/-- A member that is left out when there is no value. -/
def optional (name : String) (value : Option Json) : List (String × Json) :=
  match value with
  | some value => [(name, value)]
  | none => []

/-- An object with a first member that says of which kind it is. -/
def tagged (kind : String) : Json → Json
  | .object members => .object (("kind", .string kind) :: members)
  | value => value

end Json

/-! ### Spans and diagnostics -/

/-- A span as JSON. -/
def Span.toJson (span : Span) : Json :=
  .object [("start", .natural span.start), ("end", .natural span.stop)]

/-- Facts as JSON. -/
def Context.toJson (context : Context) : Json :=
  .object (context.map fun (name, value) => (name, .string value))

/-- A diagnostic as JSON. -/
def Diagnostic.toJson (diagnostic : Diagnostic) : Json :=
  .object
    ([("id", .string diagnostic.id),
      ("severity", .string diagnostic.severity.name),
      ("message", .string diagnostic.message)] ++
      Json.optional "span" (diagnostic.span.map Span.toJson) ++
      Json.optional "context" (diagnostic.context.map Context.toJson))

/-! ### Leaves -/

/-- A type letter as JSON. -/
def suffixToJson (suffix : Char) : Json :=
  .string (String.singleton suffix)

/-- An error placeholder as JSON. -/
def ErrorNode.toJson (node : ErrorNode) : Json :=
  .object [("message", .string node.message), ("span", node.span.toJson)]

/-- The name of a way to write a string. -/
def Quote.name : Quote → String
  | .double => "double"
  | .single => "single"
  | .bare => "bare"

/-- A string literal as JSON. -/
def StringLiteral.toJson (literal : StringLiteral) : Json :=
  .object
    [("value", .string literal.value), ("quote", .string literal.quote.name),
      ("span", literal.span.toJson)]

/-- A number as JSON. -/
def Number.toJson (number : Number) : Json :=
  .object
    (("value", .number number.value) :: Json.optional "suffix" (number.suffix.map suffixToJson) ++
      [("raw", .string number.raw), ("span", number.span.toJson)])

/-- A resource location as JSON. -/
def ResourceLocation.toJson (location : ResourceLocation) : Json :=
  .object
    [("namespace", .string location.space), ("path", .string location.path),
      ("span", location.span.toJson)]

/-- A truth value as JSON. -/
def Boolean.toJson (boolean : Boolean) : Json :=
  .object [("value", .bool boolean.value), ("span", boolean.span.toJson)]

/-- A fake player as JSON. -/
def FakePlayer.toJson (player : FakePlayer) : Json :=
  .object [("name", .string player.name), ("span", player.span.toJson)]

/-- A run of text as JSON. -/
def TextRun.toJson (run : TextRun) : Json :=
  .object [("text", .string run.text), ("span", run.span.toJson)]

/-- An interpolation as JSON. -/
def Interpolation.toJson (piece : Interpolation) : Json :=
  .object [("expression", .string piece.expression), ("span", piece.span.toJson)]

/-- A fragment as JSON. -/
def Fragment.toJson : Fragment → Json
  | .literal run => run.toJson.tagged "Literal"
  | .interpolation piece => piece.toJson.tagged "Interpolation"
  | .quoted run => run.toJson.tagged "StringRun"

/-- Text with interpolations as JSON. -/
def Interpolated.toJson (argument : Interpolated) : Json :=
  .object
    [("fragments", .array (argument.fragments.map Fragment.toJson)),
      ("quote", .string argument.quote.name), ("span", argument.span.toJson)]

/-- A coordinate part as JSON. -/
def CoordinatePart.toJson : CoordinatePart → Json
  | .absolute value suffix span =>
    .object
      ([("kind", .string "absolute"), ("value", .number value)] ++
        Json.optional "suffix" (suffix.map suffixToJson) ++ [("span", span.toJson)])
  | .relative offset span =>
    .object
      (("kind", .string "relative") :: Json.optional "offset" (offset.map Json.number) ++
        [("span", span.toJson)])
  | .localTo offset span =>
    .object
      (("kind", .string "local") :: Json.optional "offset" (offset.map Json.number) ++
        [("span", span.toJson)])

/-- Coordinates as JSON. -/
def Coordinates.toJson (coordinates : Coordinates) : Json :=
  .object
    [("parts", .array (coordinates.parts.toList.map CoordinatePart.toJson)),
      ("span", coordinates.span.toJson)]

/-- The name of a selector target. -/
def SelectorTarget.name : SelectorTarget → String
  | .nearestPlayer => "nearest_player"
  | .allPlayers => "all_players"
  | .randomPlayer => "random_player"
  | .executor => "executor"
  | .allEntities => "all_entities"
  | .nearestEntity => "nearest_entity"

/-- The name of an operator. -/
def PairOperator.name : PairOperator → String
  | .equals => "equals"
  | .tilde => "tilde"
  | .colon => "colon"

/-! ### NBT -/

/-- A key as JSON. -/
def NbtKey.toJson : NbtKey → Json
  | .plain literal => literal.toJson.tagged "Plain"
  | .interpolated argument => argument.toJson.tagged "Macro"

mutual

/-- A value as JSON. -/
def NbtValue.toJson : NbtValue → Json
  | .string node => node.toJson.tagged "String"
  | .number node => node.toJson.tagged "Number"
  | .resource node => node.toJson.tagged "ResourceLocation"
  | .list node => node.toJson.tagged "List"
  | .compound node => node.toJson.tagged "Compound"
  | .boolean node => node.toJson.tagged "Boolean"
  | .interpolated node => node.toJson.tagged "Macro"
  | .error node => node.toJson.tagged "Error"

/-- The elements of a list as JSON: their shape and the elements themselves. -/
def NbtItems.toJson : NbtItems → Json
  | .pairs elements =>
    .object [("shape", .string "pairs"), ("items", .array (NbtPair.allToJson elements))]
  | .values elements =>
    .object [("shape", .string "values"), ("items", .array (NbtValue.allToJson elements))]

/-- A list as JSON. -/
def NbtList.toJson : NbtList → Json
  | ⟨items, span⟩ => .object [("items", items.toJson), ("span", span.toJson)]

/-- A compound as JSON. -/
def NbtCompound.toJson : NbtCompound → Json
  | ⟨pairs, span⟩ => .object [("pairs", .array (NbtPair.allToJson pairs)), ("span", span.toJson)]

/-- A pair as JSON. -/
def NbtPair.toJson : NbtPair → Json
  | ⟨key, operator, value, span⟩ =>
    .object
      [("key", key.toJson), ("operator", .string operator.name), ("value", value.toJson),
        ("span", span.toJson)]

/-- Several pairs as JSON. -/
def NbtPair.allToJson : List NbtPair → List Json
  | [] => []
  | pair :: pairs => pair.toJson :: NbtPair.allToJson pairs

/-- Several values as JSON. -/
def NbtValue.allToJson : List NbtValue → List Json
  | [] => []
  | value :: values => value.toJson :: NbtValue.allToJson values

end

/-- A path suffix as JSON. -/
def PathSuffix.toJson : PathSuffix → Json
  | .index list => list.toJson.tagged "Index"
  | .filter compound => compound.toJson.tagged "Filter"

/-- A path segment as JSON. -/
def PathSegment.toJson (segment : PathSegment) : Json :=
  .object
    [("name", segment.name.toJson), ("suffixes", .array (segment.suffixes.map PathSuffix.toJson)),
      ("span", segment.span.toJson)]

/-- A path as JSON. -/
def NbtPath.toJson (path : NbtPath) : Json :=
  .object
    [("segments", .array (path.segments.map PathSegment.toJson)), ("span", path.span.toJson)]

/-- A selector as JSON. -/
def Selector.toJson (selector : Selector) : Json :=
  .object
    (("target", .string selector.target.name) ::
      Json.optional "filter" (selector.filter.map NbtList.toJson) ++
      [("span", selector.span.toJson)])

/-! ### Commands and statements -/

/-- The name of a macro command as JSON. -/
def MacroName.toJson : MacroName → Json
  | .literal name => name.toJson.tagged "Literal"
  | .interpolation piece => piece.toJson.tagged "Interpolation"

mutual

/-- An argument as JSON. -/
def Argument.toJson : Argument → Json
  | .coordinates node => node.toJson.tagged "Coordinates"
  | .string node => node.toJson.tagged "String"
  | .number node => node.toJson.tagged "Number"
  | .resource node => node.toJson.tagged "ResourceLocation"
  | .selector node => node.toJson.tagged "Selector"
  | .list node => node.toJson.tagged "NbtList"
  | .compound node => node.toJson.tagged "NbtCompound"
  | .boolean node => node.toJson.tagged "Boolean"
  | .fakePlayer node => node.toJson.tagged "FakePlayer"
  | .path node => node.toJson.tagged "NbtPath"
  | .run node => node.toJson.tagged "Run"
  | .keyword node => node.toJson.tagged "Keyword"
  | .interpolated node => node.toJson.tagged "Macro"
  | .error node => node.toJson.tagged "Error"

/-- A run clause as JSON. -/
def RunClause.toJson : RunClause → Json
  | ⟨subcommand, span⟩ => .object [("subcommand", subcommand.toJson), ("span", span.toJson)]

/-- A subcommand as JSON. -/
def Subcommand.toJson : Subcommand → Json
  | .command node => node.toJson.tagged "Command"
  | .macroCommand node => node.toJson.tagged "MacroCommand"

/-- A command as JSON. -/
def Command.toJson : Command → Json
  | ⟨name, arguments, span⟩ =>
    .object
      [("name", name.toJson), ("arguments", .array (Argument.allToJson arguments)),
        ("span", span.toJson)]

/-- A macro command as JSON. -/
def MacroCommand.toJson : MacroCommand → Json
  | ⟨name, arguments, span⟩ =>
    .object
      [("name", name.toJson), ("arguments", .array (Argument.allToJson arguments)),
        ("span", span.toJson)]

/-- Several arguments as JSON. -/
def Argument.allToJson : List Argument → List Json
  | [] => []
  | argument :: arguments => argument.toJson :: Argument.allToJson arguments

end

/-- The name of a flavour of comment. -/
def CommentKind.name : CommentKind → String
  | .normal => "normal"
  | .important => "important"
  | .directive => "directive"

/-- A comment as JSON. -/
def Comment.toJson (comment : Comment) : Json :=
  .object
    ([("commentKind", .string comment.kind.name), ("tag", .string comment.tag)] ++
      Json.optional "content" (comment.content.map Json.string) ++
      Json.optional "directive_key" (comment.directiveKey.map Json.string) ++
      Json.optional "directive_value" (comment.directiveValue.map Json.string) ++
      [("span", comment.span.toJson)])

/-- A statement as JSON. -/
def Statement.toJson : Statement → Json
  | .command node => node.toJson.tagged "Command"
  | .macroCommand node => node.toJson.tagged "MacroCommand"
  | .comment node => node.toJson.tagged "Comment"
  | .error node => node.toJson.tagged "Error"

/-- A document as JSON. -/
def Document.toJson (document : Document) : Json :=
  .object [("statements", .array (document.statements.map Statement.toJson))]

end Mcfunction
