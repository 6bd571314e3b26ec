import Mcfunction.Json.Reader
import Mcfunction.Json.Record
import Mcfunction.Tree.Encode

/-!
# Trees from JSON

The way back from the JSON form of trees and diagnostics. Every part that the JSON form always
writes must be there; members that it does not know are ignored. Spans are taken as they are,
so a tree that is read may have inconsistent spans.

What is ignored need not even have a value outside the statements of a document. Inside them all
must have one; there a variant may also be given by its place among the variants of its type.

The readers of values and arguments, which nest, are knotted from readers of one level; their
`fuel` bounds how deep they go, and the depth of the JSON value is enough.
-/

namespace Mcfunction

/-! ### Spans and diagnostics -/

/-- Reads a span. -/
def Span.ofJson? (json : Json) : Option Span := do
  let [start, stop] ← json.parts? ["start", "end"] | none
  return ⟨← Json.required Json.natural? start, ← Json.required Json.natural? stop⟩

/-- What counts of a span. -/
def Span.scope : Json.Scope :=
  .record [("start", .all), ("end", .all)]

/-- Reads a severity. -/
def Severity.ofJson? (json : Json) : Option Severity :=
  match json with
  | .object [(_, .object _)] => none
  | json => json.name?.bind Severity.ofName?

/-- Reads one fact. -/
def Context.fact? (member : String × Json) : Option (String × String) :=
  (Json.string? member.2).map fun text => (member.1, text)

/-- Reads facts. -/
def Context.ofJson? : Json → Option Context
  | .object members => (members.mapM Context.fact?).map Context.ofList
  | _ => none

/-- Reads a diagnostic. -/
def Diagnostic.ofJson? (json : Json) : Option Diagnostic := do
  let [id, severity, message, span, context] ←
    json.parts? ["id", "severity", "message", "span", "context"] | none
  return {
    id := ← Json.required Json.string? id
    severity := ← Json.required Severity.ofJson? severity
    message := ← Json.required Json.string? message
    span := ← Json.nullable Span.ofJson? span
    context := ← Json.nullable Context.ofJson? context }

/-- What counts of a diagnostic. -/
def Diagnostic.scope : Json.Scope :=
  .record
    [("id", .all), ("severity", .all), ("message", .all), ("span", Span.scope), ("context", .all)]

/-- The diagnostic whose JSON form a text holds. -/
def Diagnostic.ofJsonText? (text : String) : Option Diagnostic :=
  (Json.readWithin? Diagnostic.scope text).bind Diagnostic.ofJson?

/-! ### Leaves -/

/-- Reads an error placeholder. -/
def ErrorNode.ofJson? (json : Json) : Option ErrorNode := do
  let [message, span] ← json.parts? ["message", "span"] | none
  return ⟨← Json.required Json.string? message, ← Json.required Span.ofJson? span⟩

/-- The way to write a string that has a given name. -/
def Quote.ofName? : String → Option Quote
  | "double" => some .double
  | "single" => some .single
  | "bare" => some .bare
  | _ => none

/-- Reads a way to write a string. -/
def Quote.ofJson? (json : Json) : Option Quote :=
  json.name?.bind Quote.ofName?

/-- Reads a string literal. -/
def StringLiteral.ofJson? (json : Json) : Option StringLiteral := do
  let [value, quote, span] ← json.parts? ["value", "quote", "span"] | none
  return ⟨← Json.required Json.string? value, ← Json.required Quote.ofJson? quote,
    ← Json.required Span.ofJson? span⟩

/-- Reads a number. -/
def Number.ofJson? (json : Json) : Option Number := do
  let [value, suffix, raw, span] ← json.parts? ["value", "suffix", "raw", "span"] | none
  return ⟨← Json.required Json.double? value, ← Json.nullable Json.char? suffix,
    ← Json.required Json.string? raw, ← Json.required Span.ofJson? span⟩

/-- Reads a resource location. -/
def ResourceLocation.ofJson? (json : Json) : Option ResourceLocation := do
  let [space, path, span] ← json.parts? ["namespace", "path", "span"] | none
  return ⟨← Json.required Json.string? space, ← Json.required Json.string? path,
    ← Json.required Span.ofJson? span⟩

/-- Reads a truth value. -/
def Boolean.ofJson? (json : Json) : Option Boolean := do
  let [value, span] ← json.parts? ["value", "span"] | none
  return ⟨← Json.required Json.bool? value, ← Json.required Span.ofJson? span⟩

/-- Reads a fake player. -/
def FakePlayer.ofJson? (json : Json) : Option FakePlayer := do
  let [name, span] ← json.parts? ["name", "span"] | none
  return ⟨← Json.required Json.string? name, ← Json.required Span.ofJson? span⟩

/-- Reads a run of text. -/
def TextRun.ofJson? (json : Json) : Option TextRun := do
  let [text, span] ← json.parts? ["text", "span"] | none
  return ⟨← Json.required Json.string? text, ← Json.required Span.ofJson? span⟩

/-- Reads an interpolation. -/
def Interpolation.ofJson? (json : Json) : Option Interpolation := do
  let [expression, span] ← json.parts? ["expression", "span"] | none
  return ⟨← Json.required Json.string? expression, ← Json.required Span.ofJson? span⟩

/-- The kinds of fragments. -/
def Fragment.kinds : List String :=
  ["Literal", "Interpolation", "StringRun"]

/-- Reads a fragment. -/
def Fragment.ofJson? (json : Json) : Option Fragment := do
  match ← json.variant? Fragment.kinds with
  | ("Literal", record) => (TextRun.ofJson? record).map .literal
  | ("Interpolation", record) => (Interpolation.ofJson? record).map .interpolation
  | ("StringRun", record) => (TextRun.ofJson? record).map .quoted
  | _ => none

/-- Reads text with interpolations. -/
def Interpolated.ofJson? (json : Json) : Option Interpolated := do
  let [fragments, quote, span] ← json.parts? ["fragments", "quote", "span"] | none
  return ⟨← Json.required (Json.array? Fragment.ofJson?) fragments,
    ← Json.required Quote.ofJson? quote, ← Json.required Span.ofJson? span⟩

/-- The kinds of coordinate parts. -/
def CoordinatePart.kinds : List String :=
  ["absolute", "relative", "local"]

/-- Reads the parts of a coordinate part of a given kind. -/
def CoordinatePart.ofRecord? (kind : String) (record : Json) : Option CoordinatePart :=
  match kind with
  | "absolute" => do
    let [value, suffix, span] ← record.parts? ["value", "suffix", "span"] | none
    return .absolute (← Json.required Json.double? value) (← Json.nullable Json.char? suffix)
      (← Json.required Span.ofJson? span)
  | "relative" => do
    let [offset, span] ← record.parts? ["offset", "span"] | none
    return .relative (← Json.nullable Json.double? offset) (← Json.required Span.ofJson? span)
  | "local" => do
    let [offset, span] ← record.parts? ["offset", "span"] | none
    return .localTo (← Json.nullable Json.double? offset) (← Json.required Span.ofJson? span)
  | _ => none

/-- Reads a coordinate part. -/
def CoordinatePart.ofJson? (json : Json) : Option CoordinatePart := do
  let (kind, record) ← json.variant? CoordinatePart.kinds
  CoordinatePart.ofRecord? kind record

/-- Reads coordinates, which have exactly three parts. -/
def Coordinates.ofJson? (json : Json) : Option Coordinates := do
  let [parts, span] ← json.parts? ["parts", "span"] | none
  let [x, y, z] ← Json.required (Json.array? CoordinatePart.ofJson?) parts | none
  return ⟨⟨x, y, z⟩, ← Json.required Span.ofJson? span⟩

/-- The selector target of a given name. -/
def SelectorTarget.ofName? : String → Option SelectorTarget
  | "nearest_player" => some .nearestPlayer
  | "all_players" => some .allPlayers
  | "random_player" => some .randomPlayer
  | "executor" => some .executor
  | "all_entities" => some .allEntities
  | "nearest_entity" => some .nearestEntity
  | _ => none

/-- Reads a selector target. -/
def SelectorTarget.ofJson? (json : Json) : Option SelectorTarget :=
  json.name?.bind SelectorTarget.ofName?

/-- The operator of a given name. -/
def PairOperator.ofName? : String → Option PairOperator
  | "equals" => some .equals
  | "tilde" => some .tilde
  | "colon" => some .colon
  | _ => none

/-- Reads an operator. -/
def PairOperator.ofJson? (json : Json) : Option PairOperator :=
  json.name?.bind PairOperator.ofName?

/-! ### NBT -/

/-- The kinds of keys. -/
def NbtKey.kinds : List String :=
  ["Plain", "Macro"]

/-- Reads a key. -/
def NbtKey.ofJson? (json : Json) : Option NbtKey := do
  match ← json.variant? NbtKey.kinds with
  | ("Plain", record) => (StringLiteral.ofJson? record).map .plain
  | ("Macro", record) => (Interpolated.ofJson? record).map .interpolated
  | _ => none

/-- Reads a pair, given the reader of its value. -/
def NbtPair.ofJsonWith (value? : Json → Option NbtValue) (json : Json) : Option NbtPair := do
  let [key, operator, value, span] ← json.parts? ["key", "operator", "value", "span"] | none
  return ⟨← Json.required NbtKey.ofJson? key, ← Json.required PairOperator.ofJson? operator,
    ← Json.required value? value, ← Json.required Span.ofJson? span⟩

/-- What the elements of a list can be. -/
def NbtItems.shapes : List String :=
  ["pairs", "values"]

/-- Reads the elements of a list, given the reader of the values in them. -/
def NbtItems.ofJsonWith (value? : Json → Option NbtValue) (json : Json) : Option NbtItems := do
  match ← json.paired? NbtItems.shapes "shape" "items" with
  | ("pairs", items) => (Json.array? (NbtPair.ofJsonWith value?) items).map .pairs
  | ("values", items) => (Json.array? value? items).map .values
  | _ => none

/-- Reads a list, given the reader of the values in it. -/
def NbtList.ofJsonWith (value? : Json → Option NbtValue) (json : Json) : Option NbtList := do
  let [items, span] ← json.parts? ["items", "span"] | none
  return ⟨← Json.required (NbtItems.ofJsonWith value?) items,
    ← Json.required Span.ofJson? span⟩

/-- Reads a compound, given the reader of the values in it. -/
def NbtCompound.ofJsonWith (value? : Json → Option NbtValue) (json : Json) :
    Option NbtCompound := do
  let [pairs, span] ← json.parts? ["pairs", "span"] | none
  return ⟨← Json.required (Json.array? (NbtPair.ofJsonWith value?)) pairs,
    ← Json.required Span.ofJson? span⟩

/-- The kinds of values. -/
def NbtValue.kinds : List String :=
  ["String", "Number", "ResourceLocation", "List", "Compound", "Boolean", "Macro", "Error"]

/-- Reads a value, given the reader of the values in it. -/
def NbtValue.ofJsonWith (value? : Json → Option NbtValue) (json : Json) : Option NbtValue := do
  match ← json.variant? NbtValue.kinds with
  | ("String", record) => (StringLiteral.ofJson? record).map .string
  | ("Number", record) => (Number.ofJson? record).map .number
  | ("ResourceLocation", record) => (ResourceLocation.ofJson? record).map .resource
  | ("List", record) => (NbtList.ofJsonWith value? record).map .list
  | ("Compound", record) => (NbtCompound.ofJsonWith value? record).map .compound
  | ("Boolean", record) => (Boolean.ofJson? record).map .boolean
  | ("Macro", record) => (Interpolated.ofJson? record).map .interpolated
  | ("Error", record) => (ErrorNode.ofJson? record).map .error
  | _ => none

/-- Reads a value in which values nest less than `fuel` deep. -/
def NbtValue.ofJson? : Nat → Json → Option NbtValue
  | 0, _ => none
  | fuel + 1, json => NbtValue.ofJsonWith (NbtValue.ofJson? fuel) json

/-- Reads a list. -/
def NbtList.ofJson? (json : Json) : Option NbtList :=
  NbtList.ofJsonWith (NbtValue.ofJson? json.depth) json

/-- Reads a compound. -/
def NbtCompound.ofJson? (json : Json) : Option NbtCompound :=
  NbtCompound.ofJsonWith (NbtValue.ofJson? json.depth) json

/-- The kinds of path suffixes. -/
def PathSuffix.kinds : List String :=
  ["Index", "Filter"]

/-- Reads a path suffix. -/
def PathSuffix.ofJson? (json : Json) : Option PathSuffix := do
  match ← json.variant? PathSuffix.kinds with
  | ("Index", record) => (NbtList.ofJson? record).map .index
  | ("Filter", record) => (NbtCompound.ofJson? record).map .filter
  | _ => none

/-- Reads a path segment. -/
def PathSegment.ofJson? (json : Json) : Option PathSegment := do
  let [name, suffixes, span] ← json.parts? ["name", "suffixes", "span"] | none
  return ⟨← Json.required NbtKey.ofJson? name,
    ← Json.required (Json.array? PathSuffix.ofJson?) suffixes,
    ← Json.required Span.ofJson? span⟩

/-- Reads a path. -/
def NbtPath.ofJson? (json : Json) : Option NbtPath := do
  let [segments, span] ← json.parts? ["segments", "span"] | none
  return ⟨← Json.required (Json.array? PathSegment.ofJson?) segments,
    ← Json.required Span.ofJson? span⟩

/-- Reads a selector. -/
def Selector.ofJson? (json : Json) : Option Selector := do
  let [target, filter, span] ← json.parts? ["target", "filter", "span"] | none
  return ⟨← Json.required SelectorTarget.ofJson? target, ← Json.nullable NbtList.ofJson? filter,
    ← Json.required Span.ofJson? span⟩

/-! ### Commands and statements -/

/-- The kinds of a macro command's name. -/
def MacroName.kinds : List String :=
  ["Literal", "Interpolation"]

/-- Reads the name of a macro command. -/
def MacroName.ofJson? (json : Json) : Option MacroName := do
  match ← json.variant? MacroName.kinds with
  | ("Literal", record) => (TextRun.ofJson? record).map .literal
  | ("Interpolation", record) => (Interpolation.ofJson? record).map .interpolation
  | _ => none

/-- Reads a command, given the reader of its arguments. -/
def Command.ofJsonWith (argument? : Json → Option Argument) (json : Json) : Option Command := do
  let [name, arguments, span] ← json.parts? ["name", "arguments", "span"] | none
  return ⟨← Json.required TextRun.ofJson? name,
    ← Json.required (Json.array? argument?) arguments, ← Json.required Span.ofJson? span⟩

/-- Reads a macro command, given the reader of its arguments. -/
def MacroCommand.ofJsonWith (argument? : Json → Option Argument) (json : Json) :
    Option MacroCommand := do
  let [name, arguments, span] ← json.parts? ["name", "arguments", "span"] | none
  return ⟨← Json.required MacroName.ofJson? name,
    ← Json.required (Json.array? argument?) arguments, ← Json.required Span.ofJson? span⟩

/-- The kinds of subcommands. -/
def Subcommand.kinds : List String :=
  ["Command", "MacroCommand"]

/-- Reads a subcommand, given the reader of its arguments. -/
def Subcommand.ofJsonWith (argument? : Json → Option Argument) (json : Json) :
    Option Subcommand := do
  match ← json.variant? Subcommand.kinds with
  | ("Command", record) => (Command.ofJsonWith argument? record).map .command
  | ("MacroCommand", record) => (MacroCommand.ofJsonWith argument? record).map .macroCommand
  | _ => none

/-- Reads a run clause, given the reader of its arguments. -/
def RunClause.ofJsonWith (argument? : Json → Option Argument) (json : Json) :
    Option RunClause := do
  let [subcommand, span] ← json.parts? ["subcommand", "span"] | none
  return ⟨← Json.required (Subcommand.ofJsonWith argument?) subcommand,
    ← Json.required Span.ofJson? span⟩

/-- The kinds of arguments. -/
def Argument.kinds : List String :=
  ["Coordinates", "String", "Number", "ResourceLocation", "Selector", "NbtList", "NbtCompound",
    "Boolean", "FakePlayer", "NbtPath", "Run", "Keyword", "Macro", "Error"]

/-- Reads an argument, given the reader of the arguments in it. -/
def Argument.ofJsonWith (argument? : Json → Option Argument) (json : Json) : Option Argument := do
  match ← json.variant? Argument.kinds with
  | ("Coordinates", record) => (Coordinates.ofJson? record).map .coordinates
  | ("String", record) => (StringLiteral.ofJson? record).map .string
  | ("Number", record) => (Number.ofJson? record).map .number
  | ("ResourceLocation", record) => (ResourceLocation.ofJson? record).map .resource
  | ("Selector", record) => (Selector.ofJson? record).map .selector
  | ("NbtList", record) => (NbtList.ofJson? record).map .list
  | ("NbtCompound", record) => (NbtCompound.ofJson? record).map .compound
  | ("Boolean", record) => (Boolean.ofJson? record).map .boolean
  | ("FakePlayer", record) => (FakePlayer.ofJson? record).map .fakePlayer
  | ("NbtPath", record) => (NbtPath.ofJson? record).map .path
  | ("Run", record) => (RunClause.ofJsonWith argument? record).map .run
  | ("Keyword", record) => (TextRun.ofJson? record).map .keyword
  | ("Macro", record) => (Interpolated.ofJson? record).map .interpolated
  | ("Error", record) => (ErrorNode.ofJson? record).map .error
  | _ => none

/-- Reads an argument in which run clauses nest less than `fuel` deep. -/
def Argument.ofJson? : Nat → Json → Option Argument
  | 0, _ => none
  | fuel + 1, json => Argument.ofJsonWith (Argument.ofJson? fuel) json

/-- Reads a command. -/
def Command.ofJson? (json : Json) : Option Command :=
  Command.ofJsonWith (Argument.ofJson? json.depth) json

/-- Reads a macro command. -/
def MacroCommand.ofJson? (json : Json) : Option MacroCommand :=
  MacroCommand.ofJsonWith (Argument.ofJson? json.depth) json

/-- The flavour of comment of a given name. -/
def CommentKind.ofName? : String → Option CommentKind
  | "normal" => some .normal
  | "important" => some .important
  | "directive" => some .directive
  | _ => none

/-- Reads a flavour of comment. -/
def CommentKind.ofJson? (json : Json) : Option CommentKind :=
  json.name?.bind CommentKind.ofName?

/-- Reads a comment. -/
def Comment.ofJson? (json : Json) : Option Comment := do
  let [kind, tag, content, key, value, span] ←
    json.parts? ["commentKind", "tag", "content", "directive_key", "directive_value", "span"]
    | none
  return {
    kind := ← Json.required CommentKind.ofJson? kind
    tag := ← Json.required Json.string? tag
    content := ← Json.nullable Json.string? content
    directiveKey := ← Json.nullable Json.string? key
    directiveValue := ← Json.nullable Json.string? value
    span := ← Json.required Span.ofJson? span }

/-- Reads a statement, which is given by the name of its kind alone. -/
def Statement.ofJson? (json : Json) : Option Statement := do
  match ← json.variant? [] with
  | ("Command", record) => (Command.ofJson? record).map .command
  | ("MacroCommand", record) => (MacroCommand.ofJson? record).map .macroCommand
  | ("Comment", record) => (Comment.ofJson? record).map .comment
  | ("Error", record) => (ErrorNode.ofJson? record).map .error
  | _ => none

/-- Reads a document. -/
def Document.ofJson? (json : Json) : Option Document := do
  let [statements] ← json.parts? ["statements"] | none
  return ⟨← Json.required (Json.array? Statement.ofJson?) statements⟩

/-- What counts of a document. -/
def Document.scope : Json.Scope :=
  .record [("statements", .all)]

/-- The document whose JSON form a text holds. -/
def Document.ofJsonText? (text : String) : Option Document :=
  (Json.readWithin? Document.scope text).bind Document.ofJson?

end Mcfunction
