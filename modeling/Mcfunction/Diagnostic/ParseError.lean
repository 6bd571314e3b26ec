import Mcfunction.Cursor
import Mcfunction.Diagnostic.Basic
import Mcfunction.Scan.Quoted
import Mcfunction.Text.Escaped

/-!
# Parse Errors

Why a piece of text could not be parsed, and where. The cause says everything else: the code
under which the error is reported, its wording and what the parser expected instead.
-/

namespace Mcfunction

/-- The two kinds of container. -/
inductive Bracket where
  /-- `[` … `]`, a list. -/
  | square
  /-- `{` … `}`, a compound. -/
  | curly
deriving DecidableEq

namespace Bracket

/-- The character that closes the container. -/
def closer : Bracket → Char
  | .square => ']'
  | .curly => '}'

/-- The container in words. -/
def noun : Bracket → String
  | .square => "list"
  | .curly => "compound"

end Bracket

/-- What the parser wanted at a character that starts nothing of the kind. -/
inductive Wanted where
  /-- The name of a command. -/
  | commandName
  /-- What follows the `$` of a macro line. -/
  | macroName
  /-- An argument. -/
  | argument
  /-- The name of a fake player. -/
  | fakePlayer
  /-- A key of an NBT pair. -/
  | key
  /-- A value in an NBT container. -/
  | value
  /-- A segment of an NBT path. -/
  | segment
deriving DecidableEq

namespace Wanted

/-- What was wanted, in words. -/
def phrase : Wanted → String
  | .commandName => "command name"
  | .macroName => "command name or interpolation after '$'"
  | .argument => "argument"
  | .fakePlayer => "fake player name after '#'"
  | .key => "NBT key"
  | .value => "NBT value"
  | .segment => "path segment after '.'"

/-- What was wanted, where it is a single thing that a tool can offer. -/
def expected : Wanted → Option String
  | .commandName => some "command name"
  | .macroName => some "command name"
  | .key => some "key"
  | .segment => some "key"
  | .argument | .fakePlayer | .value => none

end Wanted

/-- Why a piece of text could not be parsed. -/
inductive Cause where
  /-- A single token could not be read. -/
  | lexical (fault : LexicalFault)
  /-- A line starts with a character that starts no statement. -/
  | unexpectedCharacter (found : Char)
  /-- A character, or the end of the statement, stands where something else was wanted. -/
  | unexpectedToken (wanted : Wanted) (found : Option Char)
  /-- A `~` or `^` argument is not part of a full triple. -/
  | malformedCoordinates
  /-- A container is not closed before the statement ends. -/
  | unclosed (bracket : Bracket)
  /-- No operator follows a key. -/
  | missingOperator
  /-- No comma stands between two elements. -/
  | missingComma
  /-- A comma stands directly before a closing bracket. -/
  | trailingComma
  /-- No value follows an operator or a comma. -/
  | missingValue
  /-- A compound has no pairs. -/
  | emptyCompound
  /-- A resource location ends at its colon. -/
  | missingPath (space : String)
  /-- A selector has no known target. -/
  | unknownTarget (written : String)
  /-- A plain command holds an interpolated argument. -/
  | interpolationInCommand
  /-- No whitespace stands between two arguments. -/
  | missingSeparator
  /-- Containers or run clauses nest beyond the limit. -/
  | nestingTooDeep (limit : Nat)
deriving DecidableEq

namespace LexicalFault

/-- The code under which the fault is reported. -/
def code : LexicalFault → Code
  | .unterminatedString => .unterminatedString
  | .invalidEscape => .invalidEscape
  | .unterminatedInterpolation => .unterminatedInterpolation

/-- The fault in words. -/
def message : LexicalFault → String
  | .unterminatedString => "unterminated string"
  | .invalidEscape => "invalid escape sequence"
  | .unterminatedInterpolation => "unterminated macro interpolation"

end LexicalFault

namespace Cause

/-- The code under which the cause is reported. -/
def code : Cause → Code
  | .lexical fault => fault.code
  | .unexpectedCharacter _ => .unexpectedCharacter
  | .unexpectedToken _ _ => .unexpectedToken
  | .malformedCoordinates => .malformedCoordinates
  | .unclosed _ => .unclosed
  | .missingOperator => .missingOperator
  | .missingComma => .missingComma
  | .trailingComma => .trailingComma
  | .missingValue => .missingValue
  | .emptyCompound => .emptyCompound
  | .missingPath _ => .missingPath
  | .unknownTarget _ => .unknownTarget
  | .interpolationInCommand => .interpolationInCommand
  | .missingSeparator => .missingSeparator
  | .nestingTooDeep _ => .nestingTooDeep

/-- The kind of the cause in words, whatever its details; a line that starts no statement has
none. -/
def title : Cause → String
  | .lexical fault => fault.message
  | .unexpectedCharacter _ => ""
  | .unexpectedToken _ _ => "unexpected token"
  | .malformedCoordinates => "malformed coordinates"
  | .unclosed _ => "unclosed NBT container"
  | .missingOperator => "missing pair operator"
  | .missingComma => "missing comma"
  | .trailingComma => "trailing comma"
  | .missingValue => "missing value"
  | .emptyCompound => "empty compound"
  | .missingPath _ => "resource location without path"
  | .unknownTarget _ => "unknown selector target"
  | .interpolationInCommand => "macro interpolation outside macro command"
  | .missingSeparator => "missing separator"
  | .nestingTooDeep _ => "nesting too deep"

/-- A character as messages quote it. -/
def quoteChar (c : Char) : String :=
  String.ofList ('\'' :: Text.escapeChar c ++ ['\''])

/-- The cause in words. -/
def message : Cause → String
  | .lexical fault => fault.message
  | .unexpectedCharacter found =>
    "unexpected character " ++ quoteChar found ++ " at start of statement"
  | .unexpectedToken wanted (some found) =>
    "expected " ++ wanted.phrase ++ ", found " ++ quoteChar found
  | .unexpectedToken wanted none =>
    "expected " ++ wanted.phrase ++ ", found end of statement"
  | .malformedCoordinates => "coordinates need three parts on one line"
  | .unclosed bracket => bracket.noun ++ " is not closed"
  | .missingOperator => "expected '=', '~' or ':' after key"
  | .missingComma => "expected ',' between elements"
  | .trailingComma => "trailing comma before closing bracket"
  | .missingValue => "expected a value"
  | .emptyCompound => "compound must contain at least one pair"
  | .missingPath space => "resource location '" ++ space ++ "' has no path after ':'"
  | .unknownTarget written => "unknown selector target '" ++ Text.escape written ++ "'"
  | .interpolationInCommand =>
    "macro interpolation is only allowed in macro commands (lines starting with '$')"
  | .missingSeparator => "expected whitespace between arguments"
  | .nestingTooDeep limit => s!"nesting exceeds the limit of {limit}"

/-- What the parser expected instead, where it is a single thing that a tool can offer. -/
def expected : Cause → Option String
  | .unexpectedCharacter _ => some "comment, command or macro command"
  | .unexpectedToken wanted _ => wanted.expected
  | .unclosed bracket => some (String.singleton bracket.closer)
  | .missingOperator => some "= ~ :"
  | .missingComma => some ","
  | .missingValue => some "value"
  | .emptyCompound => some "key:value"
  | .missingPath _ => some "resource path"
  | .unknownTarget _ => some "one of @p @a @r @s @e @n"
  | .missingSeparator => some "whitespace"
  | .lexical _ | .malformedCoordinates | .trailingComma | .interpolationInCommand
  | .nestingTooDeep _ => none

end Cause

/-- A piece of text that could not be parsed. -/
structure ParseError where
  /-- Why. -/
  cause : Cause
  /-- Where. -/
  span : Span
deriving DecidableEq

namespace ParseError

/-- The code under which the error is reported. -/
def code (error : ParseError) : Code :=
  error.cause.code

/-- The error in words. -/
def message (error : ParseError) : String :=
  error.cause.message

/-- The error in words, with its place. -/
def display (error : ParseError) : String :=
  s!"{error.message} at bytes {error.span.start}..{error.span.stop}"

/-- The error as a diagnostic; what the parser expected goes into the context. -/
def toDiagnostic (error : ParseError) : Diagnostic :=
  { Diagnostic.ofCode error.code error.message error.span with
    context := error.cause.expected.map fun expected => [("expected", expected)] }

end ParseError

/-- The error of a recognizer that stood at `cursor`. -/
def Scan.Error.at (error : Scan.Error) (cursor : Cursor) : ParseError :=
  ⟨.lexical error.fault, ⟨cursor.offsetAfter error.start, cursor.offsetAfter error.stop⟩⟩

end Mcfunction
