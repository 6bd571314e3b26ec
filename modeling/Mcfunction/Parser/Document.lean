import Mcfunction.Parser.Command
import Mcfunction.Parser.Options
import Mcfunction.Scan.Comment

/-!
# Parsing Documents

A document is read statement by statement. What a statement is shows in its first character:
`#` starts a comment, `$` a macro command, a lowercase letter a command. In tolerant mode a
line that starts otherwise, or with a name that cannot be read, becomes a placeholder, and the
parse goes on with the next statement.

`Document.parse` is the strict parse of a text and `Document.parseTolerant` the tolerant one.
-/

namespace Mcfunction

namespace Parser

/-! ### Comments -/

/-- The text without the spaces and tabs around it. -/
def trimSpaces (chars : List Char) : List Char :=
  let isSpace (c : Char) := c == ' ' || c == '\t'
  ((chars.dropWhile isSpace).reverse.dropWhile isSpace).reverse

/-- Some text, unless it is empty. -/
def nonempty? (chars : List Char) : Option String :=
  if chars.isEmpty then none else some (String.ofList chars)

/-- The comment that a tag, its mark and the text after it make. The text of a directive is
split at its first colon into a key and a value. -/
def commentOf (tag : String) (mark : Option Char) (body : List Char) (span : Span) : Comment :=
  match mark with
  | none => ⟨.normal, tag, nonempty? body, none, none, span⟩
  | some '>' =>
    let key := body.takeWhile (· != ':')
    ⟨.directive, tag, none, nonempty? (trimSpaces key), nonempty? (body.drop (key.length + 1)),
      span⟩
  | some _ => ⟨.important, tag, nonempty? body, none, none, span⟩

/-- A comment. -/
def comment : Parser Comment := do
  let start ← here
  let (count, mark) := Scan.commentTag start.rest
  let tag ← textRun count
  let body ← here
  take (Scan.commentText body.rest)
  let chars ← slice body body.offset (← here).offset
  return commentOf tag.text mark chars (← spanFrom start.offset)

/-! ### Statements -/

/-- Whether `$(` occurs in the text. -/
def holdsInterpolation : List Char → Bool
  | [] => false
  | c :: chars => Scan.startsInterpolation (c :: chars) || holdsInterpolation chars

/-- A macro command, and a warning if its text has no interpolation: the game refuses such a
line. -/
def macroStatement (arguments : Parser (List Argument)) : Parser Statement := do
  let start ← here
  let command ← macroCommand arguments
  if !holdsInterpolation (← slice start command.span.start command.span.stop) then
    log (.neverInterpolated command.span)
  return .macroCommand command

/-- A statement. -/
def statement (arguments : Bool → Parser (List Argument)) : Parser Statement := do
  let start ← here
  match start.peek with
  | some '#' => return .comment (← comment)
  | some '$' => macroStatement (arguments true)
  | some c =>
    if c.isLower then return .command (← command (arguments false))
    else failAt (.unexpectedCharacter c) start.offset start.charEnd
  | none => failAt (.unexpectedCharacter '\x00') start.offset start.offset

end Parser

/-- The kind of a statement. -/
def Statement.kind : Statement → StatementKind
  | .command _ => .command
  | .macroCommand _ => .macroCommand
  | .comment _ => .comment
  | .error _ => .error

namespace Parser

/-- A statement, or in tolerant mode the placeholder of a line that is none. -/
def anyStatement (arguments : Bool → Parser (List Argument)) : Parser Statement := do
  let start ← here
  let statement ← orElse (statement arguments) fun error => do
    match (← settings).mode with
    | .strict => fail error
    | .tolerant => recoverStatement error
  log (.statement ⟨start.offset, statement.span.stop⟩ statement.kind)
  return statement

/-- The statements from the cursor to the end of the text. -/
def statements (arguments : Bool → Parser (List Argument)) : Nat → Parser (List Statement)
  | 0 => breakOff .stalled
  | fuel + 1 => do
    skipTrivia
    match (← here).peek with
    | none => return []
    | some '\n' =>
      take 1
      statements arguments fuel
    | some _ =>
      let first ← anyStatement arguments
      return first :: (← statements arguments fuel)

/-- A document. -/
def document : Parser Document := do
  let limit := (← settings).limit
  return ⟨← statements (arguments limit) ((← here).rest.length + 1)⟩

end Parser

/-- The diagnostic that an event reports, if it reports one. -/
def Event.diagnostic? : Event → Option Diagnostic
  | .recovered error _ => some error.toDiagnostic
  | .skippedStatement error _ => some error.toDiagnostic
  | .neverInterpolated place =>
    some (.ofCode .neverInterpolated "macro line has no $(...) interpolation" place)
  | .started _ _ | .statement _ _ | .finished _ _ => none

/-- The diagnostics that a log reports, in order. -/
def diagnosticsOf (log : List Event) : List Diagnostic :=
  log.filterMap Event.diagnostic?

/-- What comes of a tolerant parse. -/
structure ParseResult where
  /-- The document, with placeholders where text was skipped. -/
  document : Document
  /-- The diagnostics in the order in which they were found. -/
  diagnostics : List Diagnostic

/-- Whether a diagnostic is an error. -/
def ParseResult.hasErrors (result : ParseResult) : Bool :=
  result.diagnostics.any Diagnostic.isError

namespace Document

/-- The outcome of parsing a text in a mode. -/
def run (mode : Mode) (options : ParseOptions) (text : String) : Outcome Document :=
  Parser.document ⟨options.maxDepth, mode⟩ (.start text)

/-- The document of a text, or the first error in it. -/
def parse (text : String) (options : ParseOptions) : Except Fault (Except ParseError Document) :=
  match run .strict options text with
  | .done document _ _ => .ok (.ok document)
  | .failed error _ => .ok (.error error)
  | .broken fault => .error fault

/-- The document of a text with placeholders for all that cannot be parsed, and what there is
to report. An error that no placeholder caught would leave the empty document. -/
def parseTolerant (text : String) (options : ParseOptions) : Except Fault ParseResult :=
  match run .tolerant options text with
  | .done document log _ => .ok ⟨document, diagnosticsOf log⟩
  | .failed _ log => .ok ⟨⟨[]⟩, diagnosticsOf log⟩
  | .broken fault => .error fault

/-- What happened in a parse from its start on, and what came of it: the document, or the error
that ended it. A parse that ends with an error is not finished. -/
def history (mode : Mode) (options : ParseOptions) (text : String) :
    Except Fault (List Event × Except ParseError Document) :=
  let started := Event.started text.utf8ByteSize mode
  match run mode options text with
  | .done document log _ =>
    let finished := Event.finished document.statements.length (diagnosticsOf log).length
    .ok (started :: log ++ [finished], .ok document)
  | .failed error log =>
    match mode with
    | .strict => .ok (started :: log, .error error)
    | .tolerant => .ok (started :: log, .ok ⟨[]⟩)
  | .broken fault => .error fault

end Document

end Mcfunction
