import Mcfunction.CommandLine.Arguments
import Mcfunction.CommandLine.Report
import Mcfunction.FileError
import Mcfunction.Tree.Sexp

/-!
# The Command-Line Program

What the program writes and with which code it exits. Code 0 says that a text is valid or that
there was no text, 1 that a text has an error or cannot be read, and 2 that the arguments make
no sense. Results go to standard output, and so do diagnostics in JSON; for people diagnostics
go to standard error.

What the program does not do itself it finds in its `Surroundings`: a reader of arguments, the
texts of sources, a terminal or none, and somebody who draws reports. `runIn` is the program in
any surroundings. `run` has a reader of arguments of its own, no terminal, and reports that are
not drawn but told line by line; it leaves the reading of sources to its caller.
-/

namespace Mcfunction.CommandLine

/-- What the program leaves behind. -/
structure Output where
  /-- The exit code. -/
  exitCode : Nat
  /-- What goes to standard output. -/
  stdout : String
  /-- The lines that go to standard error. -/
  stderr : List String
deriving DecidableEq

/-- The name of a source in diagnostics. -/
def Source.name : Source → String
  | .standardInput => "<stdin>"
  | .file name => name

/-- What is said of a source that cannot be read. -/
def Source.failure (source : Source) (error : FileError) : String :=
  match source with
  | .standardInput => "failed to read stdin: " ++ error.message
  | .file name => "failed to read '" ++ name ++ "': " ++ error.message

/-- A text as it is printed. -/
def printed (text : String) : String :=
  text ++ "\n"

/-- A JSON value as it is printed. -/
def printedJson (json : Json) : String :=
  printed json.pretty

/-- The exit code for a text with the given diagnostics. -/
def exitCode (diagnostics : List Diagnostic) : Nat :=
  if diagnostics.any Diagnostic.isError then 1 else 0

/-- The output of a program that breaks a promise of its own. -/
def broken (fault : Fault) : Output :=
  ⟨101, "", [fault.message]⟩

/-- The output when a text cannot be read. -/
def unreadable (format : Format) (message : String) : Output :=
  match format with
  | .json => ⟨1, printedJson (failureJson message), []⟩
  | .pretty => ⟨1, "", ["error: " ++ message]⟩

/-- What a parse leaves: a document, unless an error ended it, and diagnostics. -/
structure Parsed where
  /-- The document. -/
  document : Option Document
  /-- The diagnostics. -/
  diagnostics : List Diagnostic

/-- Parses a text in a mode. -/
def Parsed.ofText (mode : Mode) (options : ParseOptions) (text : String) : Except Fault Parsed :=
  match mode with
  | .strict =>
    (Document.parse text options).map fun
      | .ok document => ⟨some document, []⟩
      | .error error => ⟨none, [error.toDiagnostic]⟩
  | .tolerant =>
    (Document.parseTolerant text options).map fun result =>
      ⟨some result.document, result.diagnostics⟩

/-- The mode that a flag asks for. -/
def modeOf (strict : Bool) : Mode :=
  if strict then .strict else .tolerant

/-- A document written in a form. -/
def TreeForm.render (form : TreeForm) (text : String) (document : Document) :
    Except Fault String :=
  match form with
  | .json => .ok document.toJson.pretty
  | .sexp => document.sexpText
  | .sexpWithRanges => document.sexpTextWithRanges text

/-- The member of a parse report that holds the tree. -/
def treeMember (form : TreeForm) (text : String) (document : Document) :
    Except Fault (String × Json) :=
  match form with
  | .json => .ok ("document", document.toJson)
  | form => (form.render text document).map fun tree => ("sexp", .string tree)

/-- The output of `parse` as JSON. -/
def parsedJson (form : TreeForm) (text : String) (parsed : Parsed) : Except Fault Output := do
  let tree ←
    match parsed.document with
    | some document => (treeMember form text document).map fun member => [member]
    | none => pure []
  let report := Json.object (tree ++ [("diagnostics", diagnosticsJson parsed.diagnostics)])
  return ⟨exitCode parsed.diagnostics, printedJson report, []⟩

/-- How reports on a text are drawn: the lines of the picture. -/
abbrev Drawing := (text : String) → Report → List String

/-- The output of `parse` for people. -/
def parsedPretty (draw : Drawing) (form : TreeForm) (name text : String) (parsed : Parsed) :
    Except Fault Output := do
  let tree ←
    match parsed.document with
    | some document => (form.render text document).map printed
    | none => pure ""
  return ⟨exitCode parsed.diagnostics, tree, diagnosticsReport draw name text parsed.diagnostics⟩

/-- The output of `syntax-check`. -/
def checked (draw : Drawing) (format : Format) (name text : String) (result : ParseResult) :
    Output :=
  let valid := !result.hasErrors
  match format with
  | .json =>
    let report :=
      Json.object [("ok", .bool valid), ("diagnostics", diagnosticsJson result.diagnostics)]
    ⟨exitCode result.diagnostics, printedJson report, []⟩
  | .pretty =>
    ⟨exitCode result.diagnostics, "",
      diagnosticsReport draw name text result.diagnostics ++
        (if valid then ["syntax ok"] else [])⟩

/-- The output of `tokens`. -/
def tokenized (draw : Drawing) (format : Format) (name text : String) : Output :=
  match format, Token.ofText text with
  | .json, .ok tokens => ⟨0, printedJson (.array (tokens.map Token.toJson)), []⟩
  | .json, .error error => ⟨1, printedJson (diagnosticsJson [error.toDiagnostic]), []⟩
  | .pretty, .ok tokens => ⟨0, String.join (tokens.map fun token => printed (tokenLine token)), []⟩
  | .pretty, .error error => ⟨1, "", diagnosticsReport draw name text [error.toDiagnostic]⟩

/-- The output of a task on a text. -/
def Task.output (task : Task) (draw : Drawing) (format : Format) (options : ParseOptions)
    (name text : String) : Except Fault Output :=
  match task, format with
  | .parse sexp ranges strict, .json =>
    Parsed.ofText (modeOf strict) options text >>= parsedJson (.ofFlags sexp ranges) text
  | .parse sexp ranges strict, .pretty =>
    Parsed.ofText (modeOf strict) options text >>=
      parsedPretty draw (.ofFlags sexp ranges) name text
  | .check, format => (Document.parseTolerant text options).map (checked draw format name text)
  | .tokens, format => .ok (tokenized draw format name text)

/-- The output of `explain`. -/
def explained (format : Format) (id : String) : Output :=
  match format with
  | .json => ⟨0, printedJson (explanationJson id), []⟩
  | .pretty => ⟨0, printed (explanationLine id), []⟩

/-! ### The program in its surroundings -/

/-- What the program finds outside of itself. -/
structure Surroundings (m : Type → Type) where
  /-- Takes the arguments apart: what they ask the program for. If they make no sense, or ask for
  something else, such as a help text, then what is written instead. -/
  readArguments : List String → Except Output Request
  /-- Reads the text of a source. -/
  readSource : Source → m (Except FileError String)
  /-- Whether standard output is a terminal. -/
  isTerminal : Bool
  /-- Draws reports. -/
  draw : Drawing

section

variable {m : Type → Type} [Monad m]

/-- The output of a task on the text that an operand names. -/
def Surroundings.process (surroundings : Surroundings m) (task : Task) (operand : String)
    (format : Format) (options : ParseOptions) : m Output := do
  let source := Source.ofOperand operand
  match ← surroundings.readSource source with
  | .error error => return unreadable format (source.failure error)
  | .ok text =>
    match task.output surroundings.draw format options source.name text with
    | .ok output => return output
    | .error fault => return broken fault

/-- The output of the program for its arguments. -/
def runIn (surroundings : Surroundings m) (arguments : List String) : m Output :=
  match surroundings.readArguments arguments with
  | .error output => return output
  | .ok request =>
    let format := Format.resolve surroundings.isTerminal request.output
    match request.action with
    | .explain id => return explained format id
    | .process task operand => surroundings.process task operand format ⟨request.maxDepth⟩

end

/-! ### Surroundings of its own -/

/-- The output when the arguments make no sense. -/
def misused (fault : UsageFault) : Output :=
  ⟨2, "", ["error: " ++ fault.message]⟩

/-- The name and version of the program. -/
def version : String :=
  "mcfunction 0.1.0"

/-- What arguments ask for that are written as usual. -/
def usualRequest (arguments : List String) : Except Output Request :=
  match Draft.readAll arguments with
  | .ok (some request) => .ok request
  | .ok none => .error ⟨0, printed version, []⟩
  | .error fault => .error (misused fault)

/-- The usual arguments, no terminal, and reports that are told. -/
def Surroundings.usual {m : Type → Type} (read : Source → m (Except FileError String)) :
    Surroundings m where
  readArguments := usualRequest
  readSource := read
  isTerminal := false
  draw := fun _ report => report.lines

/-- The output of the program for its arguments, when sources are read by `read`. -/
def run {m : Type → Type} [Monad m] (read : Source → m (Except FileError String))
    (arguments : List String) : m Output :=
  runIn (.usual read) arguments

end Mcfunction.CommandLine
