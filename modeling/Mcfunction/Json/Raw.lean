import Mcfunction.Json.Basic

/-!
# JSON Values as Written

A text can be well-formed JSON and still hold strings and numerals that have no value: half of
a surrogate pair, or a numeral beyond the largest number. It can also nest deeper than anything
that is read. None of this matters in a member that nobody asks for, so a text is first taken
apart into a `Json.Raw`, and `Json.Raw.value?` then evaluates as much of it as a `Json.Scope`
asks for.
-/

namespace Mcfunction.Json

/-- A JSON value as a text writes it. Names and values that are well-formed but stand for nothing
are missing. -/
inductive Raw where
  /-- A value that is neither an array nor an object. -/
  | scalar (value : Option Json)
  /-- An array. -/
  | array (items : List Raw)
  /-- An object. -/
  | object (members : List (Option String × Raw))

/-- What counts of a JSON value. -/
inductive Scope where
  /-- All of it. -/
  | all
  /-- The parts of a record: in an object the members of these names, in an array the items in
  this order. -/
  | record (parts : List (String × Scope))

namespace Scope

/-- What counts of a member; nothing if the member itself does not count. -/
def member? (name : String) : Scope → Option Scope
  | .all => some .all
  | .record parts => parts.lookup name

/-- What counts of the items of an array, as far as it is not all. -/
def items : Scope → List Scope
  | .all => []
  | .record parts => parts.map Prod.snd

end Scope

namespace Raw

mutual

/-- The value without the members that do not count. All that counts must have a value, every
name beside it too, and arrays and objects that count nest at most `depth` deep. -/
def value? (depth : Nat) (scope : Scope) : Raw → Option Json
  | .scalar value => value
  | .array items =>
    match depth with
    | 0 => none
    | depth + 1 => (itemValues? depth scope.items items).map .array
  | .object members =>
    match depth with
    | 0 => none
    | depth + 1 => (memberValues? depth scope members).map .object

/-- The values of the items of an array. -/
def itemValues? (depth : Nat) (scopes : List Scope) : List Raw → Option (List Json)
  | [] => some []
  | item :: items => do
    let value ← value? depth (scopes.headD .all) item
    return value :: (← itemValues? depth scopes.tail items)

/-- The values of the members of an object that count. -/
def memberValues? (depth : Nat) (scope : Scope) :
    List (Option String × Raw) → Option (List (String × Json))
  | [] => some []
  | (none, _) :: _ => none
  | (some name, member) :: members =>
    match scope.member? name with
    | none => memberValues? depth scope members
    | some inner => do
      let value ← value? depth inner member
      return (name, value) :: (← memberValues? depth scope members)

end

end Raw

end Mcfunction.Json
