import Mcfunction.Parser.Container

/-!
# Parsing Arguments and Commands

A command is a name and its arguments, each after trivia; only a list or compound may directly
follow the argument before it. What kind an argument is shows in its first characters, and
among numbers, resource locations and words the longest text decides.

Run clauses nest like containers and share their limit. `arguments` is defined by recursion on
the levels that are left: with none left a run clause is too deep, and one level more lets it
hold the arguments of one level less.
-/

namespace Mcfunction.Parser

/-! ### Arguments without commands inside -/

/-- A selector. -/
def selector (inside : Containers) : Parser Selector := do
  let start ← here
  match (start.advance 1).peek.bind SelectorTarget.ofChar? with
  | some target =>
    take 2
    let filter ←
      if (← here).peek == some '[' then some <$> inside.list else pure none
    return ⟨target, filter, ← spanFrom start.offset⟩
  | none =>
    let stop := start.offsetAfter (1 + Scan.run Scan.isWordChar (start.rest.drop 1))
    let written ← sliceText start start.offset stop
    failAt (.unknownTarget written) start.offset stop

/-- A fake player. -/
def fakePlayer : Parser FakePlayer := do
  let start ← here
  match Scan.fakePlayer start.rest with
  | some count =>
    take count
    let name ← sliceText start (start.offset + 1) (← here).offset
    return ⟨name, ← spanFrom start.offset⟩
  | none => unexpected .fakePlayer

/-- A quoted string, or the path that starts with one. -/
def stringOrPath (inside : Containers) : Parser Argument := do
  let literal ← quotedString
  if startsPathSuffix (← here).rest then return .path (← pathFrom inside (.plain literal))
  else return .string literal

/-- Whether a command follows `run`: after trivia, a lowercase letter or the `$` of a macro
command. An interpolation leaves `run` a keyword. -/
def startsSubcommand (chars : List Char) : Bool :=
  let gap := Scan.trivia chars
  let tail := chars.drop gap
  0 < gap &&
    match tail with
    | [] => false
    | c :: _ => if c == '$' then !Scan.startsInterpolation tail else c.isLower

/-- An argument that starts with a word of `count` characters: a path, a truth value, a run
clause or a keyword. -/
def wordArgument (inside : Containers) (run : Cursor → Parser RunClause) (count : Nat) :
    Parser Argument := do
  let start ← here
  let tail := start.rest.drop count
  if startsPathSuffix tail then
    let name ← bareString count
    return .path (← pathFrom inside (.plain name))
  else
    let word ← textRun count
    match word.text with
    | "true" => return .boolean ⟨true, word.span⟩
    | "false" => return .boolean ⟨false, word.span⟩
    | "run" =>
      if startsSubcommand tail then return .run (← run start) else return .keyword word
    | _ => return .keyword word

/-- An argument that no single character tells apart: coordinates that start with a number, a
resource location, a number or a word. -/
def plainArgument (inside : Containers) (run : Cursor → Parser RunClause) : Parser Argument := do
  let start ← here
  if (Scan.coordinates start.rest).isSome then return .coordinates (← coordinates)
  else
    match Scan.resourceNamespace start.rest with
    | some space =>
      match Scan.path (start.rest.drop (space + 1)) with
      | some path => return .resource (← resourceLocation space path)
      | none =>
        let written ← sliceText start start.offset (start.offsetAfter space)
        failAt (.missingPath written) start.offset (start.offsetAfter (space + 1))
    | none =>
      match Scan.wholeNumber start.rest, Scan.word start.rest with
      | some (count, suffix), _ => return .number (← number count suffix)
      | none, some count => wordArgument inside run count
      | none, none => unexpected .argument

/-- An argument with interpolations, which only macro commands may have. -/
def interpolatedArgument (inMacro : Bool) : Parser Argument := do
  let argument ← interpolated false
  if inMacro then return .interpolated argument
  else fail ⟨.interpolationInCommand, argument.span⟩

/-- An argument, given the parser of a run clause whose `run` started at a cursor. -/
def argument (inside : Containers) (run : Cursor → Parser RunClause) (inMacro : Bool) :
    Parser Argument := do
  let start ← here
  if Scan.startsInterpolated false start.rest then interpolatedArgument inMacro
  else
    match start.peek with
    | some '~' | some '^' => return .coordinates (← coordinates)
    | some '"' | some '\'' => stringOrPath inside
    | some '@' => return .selector (← selector inside)
    | some '[' => return .list (← inside.list)
    | some '{' => return .compound (← inside.compound)
    | some '#' => return .fakePlayer (← fakePlayer)
    | _ => plainArgument inside run

/-- Fails because an argument is glued to the one before it. -/
def missingSeparator {α : Type} : Parser α := do
  let start ← here
  failAt .missingSeparator start.offset (start.offsetAfter (Scan.chunk start.rest))

/-- The placeholder that an argument is, if it is one. -/
def isPlaceholder : Argument → Bool
  | .error _ => true
  | _ => false

/-- The arguments of a command up to the end of the statement. Trivia must stand before each,
unless it is a list or compound or what comes before is a placeholder. -/
def argumentList (argument : Parser Argument) (afterError : Bool) : Nat → Parser (List Argument)
  | 0 => breakOff .stalled
  | fuel + 1 => do
    let gap ← here
    skipTrivia
    let start ← here
    if Scan.atLineEnd start.rest then
      moveTo gap
      return []
    else
      let glued := start.offset == gap.offset && !afterError &&
        start.peek != some '[' && start.peek != some '{'
      let first ← orPlaceholder (if glued then missingSeparator else argument) .error
      return first :: (← argumentList argument (isPlaceholder first) fuel)

/-! ### Commands -/

/-- The name of a command. -/
def commandName : Parser TextRun := do
  match Scan.commandName (← here).rest with
  | some count => textRun count
  | none => unexpected .commandName

/-- The end of a command that reaches from `start` to its last argument, or to its name if it
has no arguments. -/
def commandEnd (start : Nat) (arguments : List Argument) : Parser Nat := do
  match arguments.getLast? with
  | some last => return max last.span.stop start
  | none => return max (← here).offset start

/-- A command, given the parser of its arguments. -/
def command (arguments : Parser (List Argument)) : Parser Command := do
  let start ← here
  let name ← commandName
  let arguments ← arguments
  return ⟨name, arguments, ← span start.offset (← commandEnd start.offset arguments)⟩

/-- The name of a macro command, after its `$`. -/
def macroName : Parser MacroName := do
  let start ← here
  if Scan.startsInterpolation start.rest then return .interpolation (← interpolation)
  else if (Scan.commandName start.rest).isSome then return .literal (← commandName)
  else unexpected .macroName

/-- A macro command from its `$` on, given the parser of its arguments. -/
def macroCommand (arguments : Parser (List Argument)) : Parser MacroCommand := do
  let start ← here
  take 1
  skipTrivia
  let name ← macroName
  let arguments ← arguments
  return ⟨name, arguments, ← span start.offset (← commandEnd name.span.start arguments)⟩

/-- Whether an argument has interpolations of its own. -/
def isInterpolated : Argument → Bool
  | .interpolated _ => true
  | _ => false

/-- The command of a run clause as a subcommand: one with interpolated arguments counts as a
macro command. -/
def subcommandOf (command : Command) : Subcommand :=
  if command.arguments.any isInterpolated then
    .macroCommand ⟨.literal command.name, command.arguments, command.span⟩
  else .command command

/-- What follows the `run` at `start`, given the parser of a command's arguments inside or
outside a macro line. -/
def runClause (arguments : Bool → Parser (List Argument)) (inMacro : Bool) (start : Cursor) :
    Parser RunClause := do
  skipTrivia
  let subcommand ←
    if (← here).peek == some '$' then Subcommand.macroCommand <$> macroCommand (arguments true)
    else subcommandOf <$> command (arguments inMacro)
  return ⟨subcommand, ← span start.offset subcommand.span.stop⟩

/-- A parser of a run clause whose `run` started at `start`. When that clause itself nests too
deep, its error is widened to the end of the statement, so that a run chain past the limit is
skipped whole and not one `run` at a time. -/
def wideningTooDeep (start : Cursor) (clause : Parser RunClause) : Parser RunClause :=
  orElse clause fun error =>
    match error.cause with
    | .nestingTooDeep _ =>
      if error.span.start == start.offset then
        failAt error.cause start.offset
          (start.offsetAfter (Scan.trimmedStatement start.rest))
      else fail error
    | _ => fail error

/-- The arguments of a command, given the parsers of the containers and of the run clauses in
them. -/
def argumentsOf (inside : Containers) (clause : Cursor → Parser RunClause) (inMacro : Bool) :
    Parser (List Argument) := do
  let run (start : Cursor) := wideningTooDeep start (clause start)
  argumentList (argument inside run inMacro) false ((← here).rest.length + 1)

/-- The arguments of a command with `room` levels left for containers and run clauses. -/
def arguments : Nat → Bool → Parser (List Argument)
  | 0, inMacro, settings, cursor =>
    argumentsOf (containers 0) tooDeep inMacro settings cursor
  | room + 1, inMacro, settings, cursor =>
    argumentsOf (containers (room + 1)) (runClause (arguments room) inMacro) inMacro settings
      cursor

end Mcfunction.Parser
