import Mcfunction.Json.Basic

/-!
# Reading Records from JSON

How a JSON value is taken apart into the parts of a record, and a variant into its name and its
parts. A record is an object with members in any order, or an array of all its parts in their
own order. No member of a name that counts may be repeated; members of other names are ignored.
-/

namespace Mcfunction.Json

/-- The member of a name, if there is one; nothing if there are several. -/
def unique? (name : String) (members : List (String × Json)) : Option (Option Json) :=
  match members.filter fun member => member.1 == name with
  | [] => some none
  | [member] => some (some member.2)
  | _ => none

/-- The member of a name in an object; of several the last. -/
def member? (name : String) : Json → Option Json
  | .object members => (members.findRev? fun member => member.1 == name).map Prod.snd
  | _ => none

/-- The parts of a record with the given names, in that order. In an object a part may be
missing. -/
def parts? (names : List String) : Json → Option (List (Option Json))
  | .object members => names.mapM fun name => unique? name members
  | .array items => if items.length = names.length then some (items.map some) else none
  | _ => none

/-- A part that must be there. -/
def required {α : Type} (read : Json → Option α) (part : Option Json) : Option α :=
  part.bind read

/-- A part that may be missing or `null`. -/
def nullable {α : Type} (read : Json → Option α) (part : Option Json) : Option (Option α) :=
  match part with
  | none => some none
  | some .null => some none
  | some value => (read value).map some

/-- The name of a variant that is given by its name or by its place among the `names`. -/
def label? (names : List String) : Json → Option String
  | .string name => some name
  | .integer place => if 0 ≤ place then names[place.toNat]? else none
  | _ => none

/-- The name of a variant and the record of its parts. In an object the variant stands in the
member `kind`, in an array first; it is given by its name or by its place among the `names`. -/
def variant? (names : List String) : Json → Option (String × Json)
  | .object members => do
    let kind ← (← unique? "kind" members).bind (label? names)
    return (kind, .object (members.filter fun member => member.1 != "kind"))
  | .array (kind :: items) => do return (← label? names kind, .array items)
  | _ => none

/-- The name of a variant that has no parts: a string, or an object with nothing under the
name. -/
def name? : Json → Option String
  | .string name => some name
  | .object [(name, .null)] => some name
  | .object [(name, .object [])] => some name
  | _ => none

/-- The name of a variant and its one part, which stand side by side: in an object in two
members, where the variant is written like one without parts, in an array as two items, where
it may also be given by its place among the `names`. -/
def paired? (names : List String) (label content : String) (json : Json) :
    Option (String × Json) := do
  let [kind, part] ← json.parts? [label, content] | none
  let name ←
    match json with
    | .object _ => kind.bind name?
    | _ => kind.bind (label? names)
  return (name, ← part)

/-- A string. -/
def string? : Json → Option String
  | .string text => some text
  | _ => none

/-- A string of one character. -/
def char? : Json → Option Char
  | .string text =>
    match text.toList with
    | [c] => some c
    | _ => none
  | _ => none

/-- A truth value. -/
def bool? : Json → Option Bool
  | .bool value => some value
  | _ => none

/-- An integer that is not negative. -/
def natural? : Json → Option Nat
  | .integer value => if 0 ≤ value then some value.toNat else none
  | _ => none

/-- A number; an integer stands for the number nearest to it. -/
def double? : Json → Option Binary64
  | .double value => some value
  | .integer value => some (.ofRatio (value < 0) value.natAbs 1)
  | _ => none

/-- The items of an array, all of which must be readable. -/
def array? {α : Type} (read : Json → Option α) : Json → Option (List α)
  | .array items => items.mapM read
  | _ => none

mutual

/-- How deep arrays and objects nest in a value. -/
def depth : Json → Nat
  | .array items => depthOfItems items + 1
  | .object members => depthOfMembers members + 1
  | _ => 0

/-- How deep arrays and objects nest in one of several values. -/
def depthOfItems : List Json → Nat
  | [] => 0
  | item :: items => max (depth item) (depthOfItems items)

/-- How deep arrays and objects nest in one of several members. -/
def depthOfMembers : List (String × Json) → Nat
  | [] => 0
  | (_, value) :: members => max (depth value) (depthOfMembers members)

end

end Mcfunction.Json
