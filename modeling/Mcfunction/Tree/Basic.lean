import Mcfunction.Binary64.Basic
import Mcfunction.Scan.Number
import Mcfunction.Span

/-!
# Syntax Trees

The tree of a function file: a `Document` of statements, each a command, a macro command, a
comment or the placeholder of a line that could not be parsed. Every node carries the span of
the text it was read from, and leaves keep that text.

The types follow the grammar from the inside out: leaves, NBT values, arguments and commands,
statements.
-/

namespace Mcfunction

/-! ### Leaves -/

/-- The place of something that could not be parsed, with the message reported for it. -/
structure ErrorNode where
  /-- The message of the diagnostic. -/
  message : String
  /-- The text that was skipped. -/
  span : Span
deriving DecidableEq

/-- How a string is written. -/
inductive Quote where
  /-- Between double quotes. -/
  | double
  /-- Between single quotes. -/
  | single
  /-- As a bare word. -/
  | bare
deriving DecidableEq

/-- A string as written, with its escapes. -/
structure StringLiteral where
  /-- The text between the quotes. -/
  value : String
  /-- How the string is written. -/
  quote : Quote
  /-- The text with its quotes. -/
  span : Span
deriving DecidableEq

/-- A number with an optional type letter. -/
structure Number where
  /-- The value, whatever the type letter. -/
  value : Binary64
  /-- The type letter. -/
  suffix : Option Char
  /-- The text as written. -/
  raw : String
  /-- The text with its type letter. -/
  span : Span
deriving DecidableEq

/-- A name within a namespace. -/
structure ResourceLocation where
  /-- The part before the colon. -/
  space : String
  /-- The part after the colon. -/
  path : String
  /-- Both parts with the colon. -/
  span : Span
deriving DecidableEq

/-- `true` or `false`. -/
structure Boolean where
  /-- The truth value. -/
  value : Bool
  /-- The word. -/
  span : Span
deriving DecidableEq

/-- A score holder that stands for no player. -/
structure FakePlayer where
  /-- The name without its `#`. -/
  name : String
  /-- The name with its `#`. -/
  span : Span
deriving DecidableEq

/-- Text as written in one place of the source: the name of a command, a keyword, or a part
of an interpolated argument. -/
structure TextRun where
  /-- The text. -/
  text : String
  /-- Its place. -/
  span : Span
deriving DecidableEq

/-- `$(expression)`. -/
structure Interpolation where
  /-- The text between the parentheses. -/
  expression : String
  /-- The whole interpolation. -/
  span : Span
deriving DecidableEq

/-- One piece of an interpolated argument. -/
inductive Fragment where
  /-- Text outside quotes. -/
  | literal (run : TextRun)
  /-- An interpolation. -/
  | interpolation (interpolation : Interpolation)
  /-- Text inside quotes, with its escapes. -/
  | quoted (run : TextRun)
deriving DecidableEq

/-- Text mixed with interpolations. -/
structure Interpolated where
  /-- The pieces in order. -/
  fragments : List Fragment
  /-- How the whole is written. -/
  quote : Quote
  /-- The whole with its quotes. -/
  span : Span
deriving DecidableEq

/-- One part of a coordinate triple. -/
inductive CoordinatePart where
  /-- A position in the world. -/
  | absolute (value : Binary64) (suffix : Option Char) (span : Span)
  /-- A distance along the axes of the world. -/
  | relative (offset : Option Binary64) (span : Span)
  /-- A distance along the axes of the viewer. -/
  | localTo (offset : Option Binary64) (span : Span)
deriving DecidableEq

/-- A coordinate triple. -/
structure Coordinates where
  /-- The three parts. -/
  parts : Triple CoordinatePart
  /-- All three with the blanks between them. -/
  span : Span
deriving DecidableEq

/-- Whom a selector selects from. -/
inductive SelectorTarget where
  /-- `@p` -/
  | nearestPlayer
  /-- `@a` -/
  | allPlayers
  /-- `@r` -/
  | randomPlayer
  /-- `@s` -/
  | executor
  /-- `@e` -/
  | allEntities
  /-- `@n` -/
  | nearestEntity
deriving DecidableEq

/-! ### NBT -/

/-- What joins a key and its value. -/
inductive PairOperator where
  /-- `=` -/
  | equals
  /-- `~` -/
  | tilde
  /-- `:` -/
  | colon
deriving DecidableEq

/-- The key of a pair or the name of a path segment. -/
inductive NbtKey where
  /-- A bare word or a quoted string. -/
  | plain (literal : StringLiteral)
  /-- Text with interpolations. -/
  | interpolated (argument : Interpolated)
deriving DecidableEq

mutual

/-- A value in a list or compound. -/
inductive NbtValue where
  /-- A quoted string or a bare word. -/
  | string (literal : StringLiteral)
  /-- A number. -/
  | number (number : Number)
  /-- A resource location. -/
  | resource (location : ResourceLocation)
  /-- A list. -/
  | list (list : NbtList)
  /-- A compound. -/
  | compound (compound : NbtCompound)
  /-- `true` or `false`. -/
  | boolean (boolean : Boolean)
  /-- Text with interpolations. -/
  | interpolated (argument : Interpolated)
  /-- The place of a container that could not be parsed. -/
  | error (node : ErrorNode)

/-- The elements of a list: all of them pairs, or all of them values. -/
inductive NbtItems where
  /-- `[key=value, …]` -/
  | pairs (pairs : List NbtPair)
  /-- `[value, …]`, and the empty list. -/
  | values (values : List NbtValue)

/-- `[…]` -/
structure NbtList where
  /-- The elements. -/
  items : NbtItems
  /-- The list with its brackets. -/
  span : Span

/-- `{key:value, …}` -/
structure NbtCompound where
  /-- The pairs. -/
  pairs : List NbtPair
  /-- The compound with its braces. -/
  span : Span

/-- A key, an operator and a value. -/
structure NbtPair where
  /-- The key. -/
  key : NbtKey
  /-- What stands between key and value. -/
  operator : PairOperator
  /-- The value. -/
  value : NbtValue
  /-- From the key to the value. -/
  span : Span

end

/-- What directly follows the name of a path segment. -/
inductive PathSuffix where
  /-- `[…]` -/
  | index (list : NbtList)
  /-- `{…}` -/
  | filter (compound : NbtCompound)

/-- One segment of an NBT path. -/
structure PathSegment where
  /-- The name. -/
  name : NbtKey
  /-- What follows it. -/
  suffixes : List PathSuffix
  /-- The name with all that follows it. -/
  span : Span

/-- A way into NBT data, such as `Inventory[{Slot:0b}].tag`. -/
structure NbtPath where
  /-- The segments, between points. -/
  segments : List PathSegment
  /-- The whole path. -/
  span : Span

/-- A selector of entities. -/
structure Selector where
  /-- Whom to select from. -/
  target : SelectorTarget
  /-- Which of them to select. -/
  filter : Option NbtList
  /-- The selector with its filter. -/
  span : Span

/-! ### Commands -/

/-- The name of a macro command. -/
inductive MacroName where
  /-- A name as written. -/
  | literal (name : TextRun)
  /-- An interpolation. -/
  | interpolation (interpolation : Interpolation)
deriving DecidableEq

mutual

/-- An argument of a command. -/
inductive Argument where
  /-- Three coordinate parts. -/
  | coordinates (coordinates : Coordinates)
  /-- A quoted string. -/
  | string (literal : StringLiteral)
  /-- A number. -/
  | number (number : Number)
  /-- A resource location. -/
  | resource (location : ResourceLocation)
  /-- A selector. -/
  | selector (selector : Selector)
  /-- A list. -/
  | list (list : NbtList)
  /-- A compound. -/
  | compound (compound : NbtCompound)
  /-- `true` or `false`. -/
  | boolean (boolean : Boolean)
  /-- A fake player. -/
  | fakePlayer (player : FakePlayer)
  /-- A path into NBT data. -/
  | path (path : NbtPath)
  /-- A command to run. -/
  | run (clause : RunClause)
  /-- A bare word. -/
  | keyword (word : TextRun)
  /-- Text with interpolations. -/
  | interpolated (argument : Interpolated)
  /-- The place of an argument that could not be parsed. -/
  | error (node : ErrorNode)

/-- `run` and the command after it. -/
structure RunClause where
  /-- The command. -/
  subcommand : Subcommand
  /-- From `run` to the end of the command. -/
  span : Span

/-- The command of a run clause. -/
inductive Subcommand where
  /-- A plain command. -/
  | command (command : Command)
  /-- A command with interpolations. -/
  | macroCommand (command : MacroCommand)

/-- A name and its arguments. -/
structure Command where
  /-- The name. -/
  name : TextRun
  /-- The arguments in order, none of them interpolated. -/
  arguments : List Argument
  /-- From the name to the end of the last argument. -/
  span : Span

/-- A command whose name or arguments may hold interpolations. -/
structure MacroCommand where
  /-- The name. -/
  name : MacroName
  /-- The arguments in order. -/
  arguments : List Argument
  /-- From the `$`, or the name in a run clause, to the end of the last argument. -/
  span : Span

end

/-! ### Statements -/

/-- The flavour of a comment. -/
inductive CommentKind where
  /-- `# text` -/
  | normal
  /-- `#! text` or `#@ text` -/
  | important
  /-- `#> key: value` -/
  | directive
deriving DecidableEq

/-- A comment line. -/
structure Comment where
  /-- The flavour, told by the tag. -/
  kind : CommentKind
  /-- The marks that open the comment. -/
  tag : String
  /-- The text after the tag, except in a directive. -/
  content : Option String
  /-- The key of a directive, without blanks around it. -/
  directiveKey : Option String
  /-- The text after the colon of a directive. -/
  directiveValue : Option String
  /-- The comment without its line break. -/
  span : Span
deriving DecidableEq

/-- One statement of a function file. -/
inductive Statement where
  /-- A plain command. -/
  | command (command : Command)
  /-- A `$` line. -/
  | macroCommand (command : MacroCommand)
  /-- A `#` line. -/
  | comment (comment : Comment)
  /-- The place of a line that could not be parsed. -/
  | error (node : ErrorNode)

/-- A function file. -/
structure Document where
  /-- The statements in order; blank lines have none. -/
  statements : List Statement

/-! ### Spans of nodes that come in several forms -/

/-- The place of a coordinate part. -/
def CoordinatePart.span : CoordinatePart → Span
  | .absolute _ _ span => span
  | .relative _ span => span
  | .localTo _ span => span

/-- The place of a fragment. -/
def Fragment.span : Fragment → Span
  | .literal node => node.span
  | .interpolation node => node.span
  | .quoted node => node.span

/-- The place of a key. -/
def NbtKey.span : NbtKey → Span
  | .plain node => node.span
  | .interpolated node => node.span

/-- The place of a value. -/
def NbtValue.span : NbtValue → Span
  | .string node => node.span
  | .number node => node.span
  | .resource node => node.span
  | .list node => node.span
  | .compound node => node.span
  | .boolean node => node.span
  | .interpolated node => node.span
  | .error node => node.span

/-- The place of a path suffix. -/
def PathSuffix.span : PathSuffix → Span
  | .index node => node.span
  | .filter node => node.span

/-- The place of a macro command's name. -/
def MacroName.span : MacroName → Span
  | .literal node => node.span
  | .interpolation node => node.span

/-- The place of an argument. -/
def Argument.span : Argument → Span
  | .coordinates node => node.span
  | .string node => node.span
  | .number node => node.span
  | .resource node => node.span
  | .selector node => node.span
  | .list node => node.span
  | .compound node => node.span
  | .boolean node => node.span
  | .fakePlayer node => node.span
  | .path node => node.span
  | .run node => node.span
  | .keyword node => node.span
  | .interpolated node => node.span
  | .error node => node.span

/-- The place of a subcommand. -/
def Subcommand.span : Subcommand → Span
  | .command node => node.span
  | .macroCommand node => node.span

/-- The place of a statement. -/
def Statement.span : Statement → Span
  | .command node => node.span
  | .macroCommand node => node.span
  | .comment node => node.span
  | .error node => node.span

end Mcfunction
