import Mcfunction.Json.Lexeme
import Mcfunction.Json.Raw

/-!
# JSON Values with Their Spelling

A JSON value can be written in many ways: `1` and `1.0e0`, `"/"` and `"\/"`. A `Json.Source` is a
value together with the spelling of every string, numeral and fixed word in it. It also says
which arrays and objects end with a comma, as JSON with comments allows it.

`Json.Source.tokens` is what is written then, one spelling after the other. How they are laid
out is not part of a source.
-/

namespace Mcfunction.Json

/-- Characters that are read as one lexeme. -/
structure Spelling where
  /-- What is written. -/
  lexeme : Lexeme
  /-- How it is written. -/
  chars : List Char
  /-- The characters are the lexeme, and no more. -/
  spelled : Lexeme.first? chars = some (lexeme, [])

namespace Spelling

/-- `[` -/
def openArray : Spelling :=
  ⟨.openArray, ['['], rfl⟩

/-- `]` -/
def closeArray : Spelling :=
  ⟨.closeArray, [']'], rfl⟩

/-- An opening brace. -/
def openObject : Spelling :=
  ⟨.openObject, ['{'], rfl⟩

/-- A closing brace. -/
def closeObject : Spelling :=
  ⟨.closeObject, ['}'], rfl⟩

/-- `,` -/
def comma : Spelling :=
  ⟨.comma, [','], rfl⟩

/-- `:` -/
def colon : Spelling :=
  ⟨.colon, [':'], rfl⟩

end Spelling

namespace Lexeme

/-- What a lexeme stands for that is a value by itself. -/
def value? : Lexeme → Option (Option Json)
  | .string text => some (text.map .string)
  | .scalar value => some value
  | _ => none

/-- Whether a lexeme is a comma. -/
def isComma : Lexeme → Bool
  | .comma => true
  | _ => false

/-- Whether a lexeme ends an array or an object. -/
def closes : Lexeme → Bool
  | .closeArray => true
  | .closeObject => true
  | _ => false

end Lexeme

/-- The spelling of the name of a member. -/
structure Name where
  /-- How it is written. -/
  token : Spelling
  /-- The name, if what is written stands for one. -/
  text : Option String
  /-- What is written is a string. -/
  isString : token.lexeme = .string text

/-- A JSON value with the spelling of its parts. -/
inductive Source where
  /-- A string, a numeral or a fixed word. -/
  | literal (token : Spelling) (value : Option Json) (stands : token.lexeme.value? = some value)
  /-- An array. `trailing` says whether a comma follows the last item, if there is one. -/
  | array (items : List Source) (trailing : Bool)
  /-- An object. `trailing` says whether a comma follows the last member, if there is one. -/
  | object (members : List (Name × Source)) (trailing : Bool)

namespace Source

mutual

/-- The value that is written. -/
def value : Source → Raw
  | .literal _ value _ => .scalar value
  | .array items _ => .array (itemValues items)
  | .object members _ => .object (memberValues members)

/-- The values of the items of an array. -/
def itemValues : List Source → List Raw
  | [] => []
  | item :: items => value item :: itemValues items

/-- The names and values of the members of an object. -/
def memberValues : List (Name × Source) → List (Option String × Raw)
  | [] => []
  | (name, member) :: members => (name.text, value member) :: memberValues members

end

/-- The comma after the last item or member. -/
def lastComma (written : Bool) : List Spelling :=
  if written then [.comma] else []

mutual

/-- What is written, with or without the commas that end an array or object. -/
def tokens (trailing : Bool) : Source → List Spelling
  | .literal token _ _ => [token]
  | .array [] _ => [.openArray, .closeArray]
  | .array (item :: items) comma =>
    .openArray :: (tokens trailing item ++ itemTokens trailing items ++
      lastComma (trailing && comma) ++ [.closeArray])
  | .object [] _ => [.openObject, .closeObject]
  | .object ((name, member) :: members) comma =>
    .openObject :: name.token :: .colon :: (tokens trailing member ++
      memberTokens trailing members ++ lastComma (trailing && comma) ++ [.closeObject])

/-- The items of an array after the first, each with the comma before it. -/
def itemTokens (trailing : Bool) : List Source → List Spelling
  | [] => []
  | item :: items => .comma :: (tokens trailing item ++ itemTokens trailing items)

/-- The members of an object after the first, each with the comma before it. -/
def memberTokens (trailing : Bool) : List (Name × Source) → List Spelling
  | [] => []
  | (name, member) :: members =>
    .comma :: name.token :: .colon :: (tokens trailing member ++ memberTokens trailing members)

end

end Source

end Mcfunction.Json
