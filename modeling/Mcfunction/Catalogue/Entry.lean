import Mcfunction.Diagnostic.Code
import Mcfunction.FileError
import Mcfunction.Json.Reader
import Mcfunction.Json.Record
import Mcfunction.Jsonc

/-!
# Reading a Catalogue of Diagnostics

A catalogue is a file in JSON with comments that lists the diagnostics of a tool. An entry gives
the id, the severity and two texts of a diagnostic, and the name of the constant that stands for
the id. `Catalogue.readWith` accepts a catalogue whose entries are complete and well formed and
share neither ids nor names, whoever reads JSON for it; for `Catalogue.read` this is `Json.read?`.
-/

namespace Mcfunction.Catalogue

/-- One diagnostic of a catalogue. -/
structure Entry where
  /-- The id, such as `MCF1234`. -/
  id : String
  /-- The name of the constant that stands for the id. -/
  constant : String
  /-- The diagnostic in one line. -/
  summary : String
  /-- The long explanation. -/
  description : String
  /-- How serious the diagnostic is. -/
  severity : Severity
deriving DecidableEq

/-- What is wrong with an entry. -/
inductive EntryFault where
  /-- A field is missing or is no string. -/
  | missingField (name : String)
  /-- The id is not `MCF` and four digits. -/
  | malformedId (id : String)
  /-- The name is not made of capitals, digits and underscores. -/
  | malformedConstant (id constant : String)
  /-- An earlier entry has the same id. -/
  | repeatedId (id : String)
  /-- An earlier entry has the same name. -/
  | repeatedConstant (id constant : String)
  /-- There is no such severity. -/
  | unknownSeverity (id severity : String)
deriving DecidableEq

/-- The fault of the entry at an index, in words. -/
def EntryFault.message (index : Nat) : EntryFault → String
  | .missingField name => s!"diagnostics[{index}] missing string field `{name}`"
  | .malformedId id => s!"diagnostics[{index}]: id '{id}' must look like MCF1234"
  | .malformedConstant id constant =>
    s!"diagnostics[{index}] (id={id}): constName '{constant}' is not SCREAMING_SNAKE_CASE"
  | .repeatedId id => s!"diagnostics[{index}]: duplicate id '{id}'"
  | .repeatedConstant id constant =>
    s!"diagnostics[{index}] (id={id}): duplicate constName '{constant}'"
  | .unknownSeverity id severity =>
    s!"diagnostics[{index}] (id={id}): invalid severity '{severity}'"

/-- Why a catalogue is refused. -/
inductive Fault where
  /-- The file cannot be read. -/
  | unreadable (cause : FileError)
  /-- The text is not JSON with comments. -/
  | invalidJson
  /-- There is no array of entries. -/
  | noEntries
  /-- An entry is wrong. -/
  | entry (index : Nat) (fault : EntryFault)
deriving DecidableEq

/-- Where the file stands in a project. -/
def path : String :=
  "spec/diagnostics.jsonc"

/-- The fault in words. -/
def Fault.message : Fault → String
  | .unreadable cause => "failed to read " ++ path ++ ": " ++ cause.message
  | .invalidJson => "failed to parse diagnostics.jsonc as JSON"
  | .noEntries => "diagnostics.jsonc: expected `diagnostics` array"
  | .entry index fault => fault.message index

/-- Whether an id is `MCF` and four digits. -/
def isId (id : String) : Bool :=
  match id.toList with
  | 'M' :: 'C' :: 'F' :: digits => digits.length == 4 && digits.all Char.isDigit
  | _ => false

/-- Characters of a constant's name. -/
def isConstantChar (c : Char) : Bool :=
  c.isUpper || c.isDigit || c == '_'

/-- Whether a name is made of capitals, digits and underscores and starts with a capital. -/
def isConstant (name : String) : Bool :=
  match name.toList with
  | [] => false
  | c :: chars => c.isUpper && chars.all isConstantChar

/-- A string field of an entry. -/
def field (entry : Json) (name : String) : Except EntryFault String :=
  match (entry.member? name).bind Json.string? with
  | some text => .ok text
  | none => .error (.missingField name)

/-- Refuses what a condition does not hold of. -/
def require (condition : Bool) (fault : EntryFault) : Except EntryFault Unit :=
  if condition then .ok () else .error fault

/-- Reads an entry that comes after others. -/
def readEntry (earlier : List Entry) (entry : Json) : Except EntryFault Entry := do
  let id ← field entry "id"
  let constant ← field entry "constName"
  let summary ← field entry "summary"
  let description ← field entry "description"
  let severity ← field entry "severity"
  require (isId id) (.malformedId id)
  require (isConstant constant) (.malformedConstant id constant)
  require (!earlier.any (fun other => other.id == id)) (.repeatedId id)
  require (!earlier.any (fun other => other.constant == constant)) (.repeatedConstant id constant)
  match Severity.ofName? severity with
  | some severity => return ⟨id, constant, summary, description, severity⟩
  | none => throw (.unknownSeverity id severity)

/-- Reads entries that come after others, and answers with all of them. -/
def readEntries (earlier : List Entry) : List Json → Except Fault (List Entry)
  | [] => .ok earlier
  | entry :: entries =>
    match readEntry earlier entry with
    | .ok entry => readEntries (earlier ++ [entry]) entries
    | .error fault => .error (.entry earlier.length fault)

/-- The entries of a catalogue in order, when `reader` reads JSON. -/
def readWith (reader : String → Option Json) (text : String) : Except Fault (List Entry) :=
  match reader (Jsonc.strip text) with
  | none => .error .invalidJson
  | some spec =>
    match spec.member? "diagnostics" with
    | some (.array entries) => readEntries [] entries
    | _ => .error .noEntries

/-- The entries of a catalogue in order. -/
def read (text : String) : Except Fault (List Entry) :=
  readWith Json.read? text

end Mcfunction.Catalogue
