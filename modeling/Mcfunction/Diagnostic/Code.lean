/-!
# The Diagnostic Catalogue

Every problem that the parser reports has a code: an id that stays the same across releases,
a severity and a long explanation. Ids are grouped by where the problem lies: `MCF10xx` in a
single token, `MCF20xx` inside a statement, `MCF30xx` in a whole line.
-/

namespace Mcfunction

/-- How serious a diagnostic is. -/
inductive Severity where
  /-- The input is invalid. -/
  | error
  /-- The input can be read, but the game is likely to refuse it. -/
  | warn
deriving DecidableEq

namespace Severity

/-- The name of the severity in diagnostics. -/
def name : Severity → String
  | .error => "error"
  | .warn => "warn"

/-- The severity of a given name. -/
def ofName? : String → Option Severity
  | "error" => some .error
  | "warn" => some .warn
  | _ => none

end Severity

/-- The kinds of problem in the catalogue. -/
inductive Code where
  /-- A quoted string is not closed on its line. -/
  | unterminatedString
  /-- A backslash in a string has nothing to escape. -/
  | invalidEscape
  /-- An interpolation is not closed on its line. -/
  | unterminatedInterpolation
  /-- A `~` or `^` argument is not part of a full triple. -/
  | malformedCoordinates
  /-- A list or compound is not closed. -/
  | unclosed
  /-- No operator follows a key. -/
  | missingOperator
  /-- No comma stands between two elements. -/
  | missingComma
  /-- A comma stands directly before a closing bracket. -/
  | trailingComma
  /-- No value follows an operator or a comma. -/
  | missingValue
  /-- A compound has no pairs. -/
  | emptyCompound
  /-- A resource location ends at its colon. -/
  | missingPath
  /-- A selector has no known target. -/
  | unknownTarget
  /-- A plain command holds an interpolated argument. -/
  | interpolationInCommand
  /-- No whitespace stands between two arguments. -/
  | missingSeparator
  /-- A character starts no argument or value. -/
  | unexpectedToken
  /-- Containers or run clauses nest beyond the limit. -/
  | nestingTooDeep
  /-- A macro line has no interpolation. -/
  | neverInterpolated
  /-- A line starts with a character that starts no statement. -/
  | unexpectedCharacter
deriving DecidableEq

namespace Code

/-- All codes in the order of their ids. -/
def all : List Code :=
  [.unterminatedString, .invalidEscape, .unterminatedInterpolation, .malformedCoordinates,
   .unclosed, .missingOperator, .missingComma, .trailingComma, .missingValue, .emptyCompound,
   .missingPath, .unknownTarget, .interpolationInCommand, .missingSeparator, .unexpectedToken,
   .nestingTooDeep, .neverInterpolated, .unexpectedCharacter]

/-- The id under which the problem is reported. -/
def id : Code → String
  | .unterminatedString => "MCF1001"
  | .invalidEscape => "MCF1002"
  | .unterminatedInterpolation => "MCF1003"
  | .malformedCoordinates => "MCF2001"
  | .unclosed => "MCF2002"
  | .missingOperator => "MCF2003"
  | .missingComma => "MCF2004"
  | .trailingComma => "MCF2005"
  | .missingValue => "MCF2006"
  | .emptyCompound => "MCF2007"
  | .missingPath => "MCF2008"
  | .unknownTarget => "MCF2009"
  | .interpolationInCommand => "MCF2010"
  | .missingSeparator => "MCF2011"
  | .unexpectedToken => "MCF2012"
  | .nestingTooDeep => "MCF2013"
  | .neverInterpolated => "MCF2014"
  | .unexpectedCharacter => "MCF3001"

/-- How serious the problem is. -/
def severity : Code → Severity
  | .neverInterpolated => .warn
  | _ => .error

/-- What the problem means and how to solve it. -/
def explanation : Code → String
  | .unterminatedString =>
    "A single- or double-quoted string must be closed on the same line. Raw line breaks are " ++
    "not allowed inside strings; a backslash line continuation does not extend a string " ++
    "either."
  | .invalidEscape =>
    "Inside a quoted string a backslash escapes the next character. A backslash directly " ++
    "before a line break or the end of input escapes nothing and is rejected."
  | .unterminatedInterpolation =>
    "A macro interpolation starts with `$(` and runs up to the first `)` on the same line. " ++
    "Nested parentheses are not supported."
  | .malformedCoordinates =>
    "Coordinates are three whitespace-separated parts on one line. Each part is absolute (a " ++
    "number), relative (`~` with an optional offset) or local (`^` with an optional offset). " ++
    "A `~` or `^` argument that does not form a full triple is malformed."
  | .unclosed =>
    "Every `[` needs a matching `]` and every `\x7b` a matching `\x7d` before the statement ends."
  | .missingOperator =>
    "Pairs in compounds and pair-shaped lists are written `key=value`, `key~value` or " ++
    "`key:value`."
  | .missingComma =>
    "Elements of a list or compound are separated by commas. After an element the parser " ++
    "expects either a comma or the closing bracket."
  | .trailingComma =>
    "Lists and compounds do not accept a trailing comma after their last element."
  | .missingValue =>
    "A pair operator or a list comma must be followed by a value: a string, number, resource " ++
    "location, list, compound, boolean, bare word or macro argument."
  | .emptyCompound =>
    "A compound (or a compound-shaped path filter) must contain at least one `key:value` pair."
  | .missingPath =>
    "Resource locations are written `namespace:path`, where the path is one or more segments " ++
    "of `[a-zA-Z0-9_.-]` separated by `/`."
  | .unknownTarget =>
    "Entity selectors are `@p`, `@a`, `@r`, `@s`, `@e` or `@n`, optionally followed directly " ++
    "by a `[...]` filter."
  | .interpolationInCommand =>
    "`$(name)` interpolations are only substituted in macro commands, i.e. lines that start " ++
    "with `$`. Inside NBT data and path keys the interpolation is accepted anywhere, as in " ++
    "the source grammar."
  | .missingSeparator =>
    "Each argument must be preceded by whitespace. Only an NBT list or compound may directly " ++
    "follow the previous argument, as in `minecraft:chest[facing=north]`."
  | .unexpectedToken =>
    "The character at this position cannot begin an argument (or an NBT value inside a list " ++
    "or compound)."
  | .nestingTooDeep =>
    "NBT containers and `run` clauses may nest up to `ParseOptions::max_depth` levels (CLI: " ++
    "`--max-depth`). Deeper input is rejected instead of risking a stack overflow."
  | .neverInterpolated =>
    "A line starting with `$` is only useful when it substitutes at least one `$(name)` " ++
    "argument. The game refuses to load a function whose macro line has none. Drop the `$` or " ++
    "add an interpolation."
  | .unexpectedCharacter =>
    "A statement starts with `#` (comment), `$` (macro command) or a lowercase letter " ++
    "(command name). Any other first character makes the whole line invalid."

/-- The code that has this id. -/
def ofId? (id : String) : Option Code :=
  all.find? (fun code => code.id == id)

end Code

/-- The long explanation of a diagnostic id, if the catalogue has it. -/
def explain (id : String) : Option String :=
  (Code.ofId? id).map Code.explanation

/-- The severity of a diagnostic id, if the catalogue has it. -/
def defaultSeverity (id : String) : Option Severity :=
  (Code.ofId? id).map Code.severity

end Mcfunction
