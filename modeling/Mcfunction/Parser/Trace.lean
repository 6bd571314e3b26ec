import Mcfunction.Json.Basic
import Mcfunction.Parser.Document

/-!
# Trace Records

What a parse tells about its events to someone who follows it: a level, and named fields of
which the first is a message. Recoveries, warnings and the ends of a parse are told at the
debug level, single statements at the finer trace level.
-/

namespace Mcfunction

/-- How much detail a record gives. -/
inductive TraceLevel where
  /-- Steps of a parse out of the ordinary. -/
  | debug
  /-- Every statement. -/
  | trace
deriving DecidableEq

/-- The name of a level. -/
def TraceLevel.name : TraceLevel → String
  | .debug => "DEBUG"
  | .trace => "TRACE"

/-- What is told about one event. -/
structure TraceRecord where
  /-- The level. -/
  level : TraceLevel
  /-- The fields with their names. -/
  fields : List (String × Json)

/-- The name of a kind of statement. -/
def StatementKind.name : StatementKind → String
  | .command => "command"
  | .macroCommand => "macro_command"
  | .comment => "comment"
  | .error => "error"

/-- The fields of a recovery. -/
def recoveryFields (message : String) (error : ParseError) (skipped : Span) :
    List (String × Json) :=
  [("message", .string message), ("code", .string error.code.id),
    ("start", .natural skipped.start), ("end", .natural skipped.stop)]

/-- What is told about an event. -/
def Event.record : Event → TraceRecord
  | .started bytes mode =>
    ⟨.debug,
      [("message", .string "parsing mcfunction source"), ("bytes", .natural bytes),
        ("tolerant", .bool (mode == .tolerant))]⟩
  | .recovered error skipped => ⟨.debug, recoveryFields error.message error skipped⟩
  | .skippedStatement error skipped =>
    ⟨.debug, recoveryFields "skipping malformed statement" error skipped⟩
  | .neverInterpolated place =>
    ⟨.debug,
      [("message", .string "macro line without interpolation"),
        ("start", .natural place.start)]⟩
  | .statement span kind =>
    ⟨.trace,
      [("message", .string "statement"), ("start", .natural span.start),
        ("end", .natural span.stop), ("kind", .string kind.name)]⟩
  | .finished statements diagnostics =>
    ⟨.debug,
      [("message", .string "parse finished"), ("statements", .natural statements),
        ("diagnostics", .natural diagnostics)]⟩

end Mcfunction
