import Mcfunction.Json.Record

/-!
# Parse Options

The choices that a caller makes for a parse, and their JSON form: an object, or an array of the
choices in order. A choice that is left out has its default.
-/

namespace Mcfunction

/-- Choices that a caller makes for a parse. -/
structure ParseOptions where
  /-- How deep containers and run clauses may nest. -/
  maxDepth : Nat := 256
deriving DecidableEq

/-- Reads options. -/
def ParseOptions.ofJson? : Json → Option ParseOptions
  | .object members =>
    match Json.member? "maxDepth" (.object members) with
    | none => some {}
    | some value => value.natural?.map ParseOptions.mk
  | .array [] => some {}
  | .array [value] => value.natural?.map ParseOptions.mk
  | _ => none

end Mcfunction
