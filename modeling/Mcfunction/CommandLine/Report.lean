import Mcfunction.LineIndex
import Mcfunction.Text.Escaped
import Mcfunction.Token
import Mcfunction.Tree.Encode

/-!
# Reports

How tokens, diagnostics and explanations are written: as JSON for tools, as lines of text for
people.

For people a diagnostic becomes a `Report`, a picture of the text with the place of the diagnostic
underlined. What a report says is settled here; how it is drawn is left to a function that gives
the lines of the picture.
-/

namespace Mcfunction

/-- The name of a kind of token in JSON. -/
def TokenKind.name : TokenKind → String
  | .comment => "comment"
  | .macroSigil => "macro_sigil"
  | .word => "word"
  | .number => "number"
  | .coordinate => "coord_part"
  | .string => "string"
  | .interpolation => "interpolation"
  | .selector => "selector"
  | .fakePlayer => "fake_player"
  | .punctuation => "punct"
  | .continuation => "continuation"
  | .whitespace => "whitespace"
  | .newline => "newline"
  | .unknown => "unknown"

/-- The name of a kind of token in text. -/
def TokenKind.title : TokenKind → String
  | .comment => "Comment"
  | .macroSigil => "MacroSigil"
  | .word => "Word"
  | .number => "Number"
  | .coordinate => "CoordPart"
  | .string => "String"
  | .interpolation => "Interpolation"
  | .selector => "Selector"
  | .fakePlayer => "FakePlayer"
  | .punctuation => "Punct"
  | .continuation => "Continuation"
  | .whitespace => "Whitespace"
  | .newline => "Newline"
  | .unknown => "Unknown"

/-- A token as JSON. -/
def Token.toJson (token : Token) : Json :=
  .object
    [("kind", .string token.kind.name), ("text", .string token.text),
      ("start", .natural token.span.start), ("end", .natural token.span.stop)]

namespace CommandLine

/-- A text brought to a width by spaces before it. -/
def alignRight (width : Nat) (text : String) : String :=
  String.ofList (List.replicate (width - text.length) ' ') ++ text

/-- A text brought to a width by spaces after it. -/
def alignLeft (width : Nat) (text : String) : String :=
  text ++ String.ofList (List.replicate (width - text.length) ' ')

/-- A token on one line: its place, its kind and its text. -/
def tokenLine (token : Token) : String :=
  alignRight 6 (toString token.span.start) ++ ".." ++
    alignLeft 6 (toString token.span.stop) ++ " " ++
    alignLeft 14 token.kind.title ++ " " ++ Text.visible token.text

/-- The colours of a terminal. -/
inductive Colour where
  /-- For errors. -/
  | red
  /-- For warnings. -/
  | yellow
  /-- For ids. -/
  | cyan
deriving DecidableEq

/-- The number of a colour among the terminal's control sequences. -/
def Colour.code : Colour → String
  | .red => "31"
  | .yellow => "33"
  | .cyan => "36"

/-- A text in a colour. -/
def Colour.paint (colour : Colour) (text : String) : String :=
  "\x1b[" ++ colour.code ++ "m" ++ text ++ "\x1b[0m"

/-- A number of things, with their noun in the singular or plural. -/
def count (number : Nat) (noun : String) : String :=
  toString number ++ " " ++ noun ++ (if number = 1 then "" else "s")

/-- How many errors and warnings there are, on one line; nothing if there are none. -/
def summary (diagnostics : List Diagnostic) : List String :=
  let errors := diagnostics.countP Diagnostic.isError
  let warnings := diagnostics.length - errors
  let parts :=
    (if errors = 0 then [] else [Colour.red.paint (count errors "error")]) ++
      (if warnings = 0 then [] else [Colour.yellow.paint (count warnings "warning")])
  if parts.isEmpty then [] else [", ".intercalate parts]

/-- What a report is about. -/
inductive ReportKind where
  /-- An error. -/
  | error
  /-- Something less. -/
  | warning
deriving DecidableEq

/-- What a report of a severity is about. -/
def ReportKind.ofSeverity : Severity → ReportKind
  | .error => .error
  | .warn => .warning

/-- The colour of a severity. -/
def Colour.ofSeverity : Severity → Colour
  | .error => .red
  | .warn => .yellow

/-- A severity in words. -/
def severityWord : Severity → String
  | .error => "error"
  | .warn => "warning"

/-- A picture of a piece of text with what is to be said of it. -/
structure Report where
  /-- What the report is about. -/
  kind : ReportKind
  /-- The id of the diagnostic. -/
  code : String
  /-- What is said above the text. -/
  message : String
  /-- The name of the text. -/
  name : String
  /-- The piece of the text that is underlined. -/
  span : Span
  /-- What is said under the line. -/
  label : String
  /-- The colour of the line. -/
  colour : Colour
  /-- What is noted below the text. -/
  note : String
  /-- What can help. -/
  help : Option String
deriving DecidableEq

/-- What is said under the line: what was expected, if that is known, otherwise the message. -/
def labelOf (diagnostic : Diagnostic) : String :=
  match diagnostic.context.bind (List.lookup "expected") with
  | some expected => "expected " ++ expected
  | none => diagnostic.message

/-- The report on a diagnostic that is at `span` in the text of a name, which has `size` bytes.
Lines and columns are noted from one on. -/
def Report.ofDiagnostic (name : String) (size : Nat) (index : LineIndex) (diagnostic : Diagnostic)
    (span : Span) : Report :=
  let start := min span.start size
  let stop := max (min span.stop size) start
  let (line, column) := index.lineColumn start
  { kind := .ofSeverity diagnostic.severity
    code := diagnostic.id
    message := diagnostic.message
    name
    span := ⟨start, stop⟩
    label := labelOf diagnostic
    colour := .ofSeverity diagnostic.severity
    note := "at " ++ name ++ ":" ++ toString (line + 1) ++ ":" ++ toString (column + 1)
    help := diagnostic.explanation? }

/-- A diagnostic that is nowhere in a text. -/
def placelessLines (diagnostic : Diagnostic) : List String :=
  (severityWord diagnostic.severity ++ "[" ++ diagnostic.id ++ "]: " ++ diagnostic.message) ::
    (diagnostic.explanation?.map ("  = help: " ++ ·)).toList

/-- The lines of a diagnostic, when `draw` gives those of a report. -/
def diagnosticLines (draw : Report → List String) (name : String) (size : Nat)
    (index : LineIndex) (diagnostic : Diagnostic) : List String :=
  match diagnostic.span with
  | none => placelessLines diagnostic
  | some span => draw (.ofDiagnostic name size index diagnostic span)

/-- The diagnostics of a text, and how many there are, when `draw` gives the lines of a report on
a text. -/
def diagnosticsReport (draw : String → Report → List String) (name text : String)
    (diagnostics : List Diagnostic) : List String :=
  diagnostics.flatMap (diagnosticLines (draw text) name text.utf8ByteSize (.ofText text)) ++
    summary diagnostics

/-- A report without the text: what it says, line by line. -/
def Report.lines (report : Report) : List String :=
  let title :=
    match report.kind with
    | .error => "Error: "
    | .warning => "Warning: "
  ["[" ++ report.code ++ "] " ++ title ++ report.message,
      "  " ++ report.colour.paint report.label] ++
    (report.help.map ("  Help: " ++ ·)).toList ++ ["  Note: " ++ report.note]

/-- Diagnostics as JSON. -/
def diagnosticsJson (diagnostics : List Diagnostic) : Json :=
  .array (diagnostics.map Diagnostic.toJson)

/-- The explanation of an id as JSON. -/
def explanationJson (id : String) : Json :=
  .object
    [("explanation", match explain id with
      | some text => .string text
      | none => .null),
      ("id", .string id)]

/-- The explanation of an id on one line. -/
def explanationLine (id : String) : String :=
  match explain id with
  | some text => Colour.cyan.paint id ++ ": " ++ text
  | none => id ++ ": (no explanation available)"

/-- What is said as JSON of a command that could not do its work. -/
def failureJson (message : String) : Json :=
  .object
    [("error", .string "command_failed"), ("message", .string message),
      ("success", .bool false)]

end CommandLine

end Mcfunction
