import Mcfunction.Catalogue.Entry
import Mcfunction.Text.Escaped

/-!
# Lookup Tables of a Catalogue

The source text that a build generates from a catalogue: the constants for the ids, and two
match expressions over an id, for the explanation and for the severity.
-/

namespace Mcfunction.Catalogue

/-- The generated files. -/
structure Tables where
  /-- One documented constant for each entry. -/
  codes : String
  /-- The expression that gives the explanation of an id. -/
  explain : String
  /-- The expression that gives the severity of an id. -/
  severity : String
deriving DecidableEq

/-- A text between double quotes, with what a literal cannot hold escaped. -/
def literal (text : String) : String :=
  "\"" ++ Text.escape text ++ "\""

/-- The documented constant of an entry. -/
def Entry.declaration (entry : Entry) : String :=
  "/// " ++ entry.summary ++ "\n" ++
    "pub const " ++ entry.constant ++ ": &str = \"" ++ entry.id ++ "\";\n\n"

/-- The constants of a catalogue. -/
def codesText (entries : List Entry) : String :=
  "// Auto-generated from " ++ path ++ ". DO NOT EDIT.\n\n" ++
    String.join (entries.map Entry.declaration)

/-- The arm of a match expression for an id. -/
def arm (id result : String) : String :=
  "    \"" ++ id ++ "\" => Some(" ++ result ++ "),\n"

/-- A match expression over an id with the given arms. -/
def matchText (arms : List String) : String :=
  "match id \x7b\n" ++ String.join arms ++ "    _ => None,\n\x7d\n"

/-- The expression that gives the explanation of an id. -/
def explainText (entries : List Entry) : String :=
  matchText (entries.map fun entry => arm entry.id (literal entry.description))

/-- A severity as an expression. -/
def severityText : Severity → String
  | .error => "Severity::Error"
  | .warn => "Severity::Warn"

/-- The expression that gives the severity of an id. -/
def severitiesText (entries : List Entry) : String :=
  matchText (entries.map fun entry => arm entry.id (severityText entry.severity))

/-- The tables of a catalogue's entries. -/
def tables (entries : List Entry) : Tables :=
  ⟨codesText entries, explainText entries, severitiesText entries⟩

/-- What the build is told before it generates anything: to run again when the file changes. -/
def notice : String :=
  "cargo:rerun-if-changed=" ++ path

/-- The tables of the catalogue in a file, when `reader` reads JSON. -/
def buildWith (reader : String → Option Json) (file : Except FileError String) :
    Except Fault Tables :=
  match file with
  | .error cause => .error (.unreadable cause)
  | .ok text => (readWith reader text).map tables

/-- The tables of the catalogue in a file. -/
def build (file : Except FileError String) : Except Fault Tables :=
  buildWith Json.read? file

end Mcfunction.Catalogue
