import Mcfunction.Span
import Mcfunction.Diagnostic.Code

/-!
# Diagnostics

A diagnostic tells a user about one problem: its id in the catalogue, its severity, a message,
where it is, and a context of named facts for tools. The context is ordered by its keys.
-/

namespace Mcfunction

/-- Named facts about a problem, ordered by name and without repetitions. -/
abbrev Context := List (String × String)

namespace Context

/-- Sets one fact, in place of an earlier one of the same name. -/
def insert (name value : String) : Context → Context
  | [] => [(name, value)]
  | (other, known) :: facts =>
    if name < other then (name, value) :: (other, known) :: facts
    else if name = other then (name, value) :: facts
    else (other, known) :: insert name value facts

/-- The context of the facts given in any order; of two facts of one name the last counts. -/
def ofList (facts : List (String × String)) : Context :=
  facts.foldl (fun context fact => insert fact.1 fact.2 context) []

end Context

/-- One reported problem. -/
structure Diagnostic where
  /-- Id in the catalogue. -/
  id : String
  /-- How serious the problem is. -/
  severity : Severity
  /-- The problem in words. -/
  message : String
  /-- Where the problem is. -/
  span : Option Span
  /-- Facts for tools. -/
  context : Option Context
deriving DecidableEq

namespace Diagnostic

/-- A diagnostic with the severity that the catalogue gives its id; ids that the catalogue
does not have are errors. -/
def ofId (id message : String) (span : Option Span) : Diagnostic :=
  ⟨id, (defaultSeverity id).getD .error, message, span, none⟩

/-- A diagnostic of a code of the catalogue. -/
def ofCode (code : Code) (message : String) (span : Span) : Diagnostic :=
  ⟨code.id, code.severity, message, some span, none⟩

/-- Whether the diagnostic makes the input invalid. -/
def isError (diagnostic : Diagnostic) : Bool :=
  diagnostic.severity == .error

/-- The long explanation of the diagnostic's id. -/
def explanation? (diagnostic : Diagnostic) : Option String :=
  explain diagnostic.id

/-- The diagnostic on one line. -/
def display (diagnostic : Diagnostic) : String :=
  s!"{diagnostic.severity.name}[{diagnostic.id}]: {diagnostic.message}"

end Diagnostic

end Mcfunction
