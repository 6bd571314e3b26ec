import Mcfunction.Binary64.Shortest

/-!
# JSON Values

A JSON value keeps the order of an object's members, and tells integers from other numbers.
`Json.compact` and `Json.pretty` write it as text; what JSON cannot write, an infinity or a
number that is none, becomes `null`.
-/

namespace Mcfunction

/-- A JSON value. -/
inductive Json where
  /-- `null` -/
  | null
  /-- `true` or `false`. -/
  | bool (value : Bool)
  /-- A number without point and exponent. -/
  | integer (value : Int)
  /-- Any other number. -/
  | double (value : Binary64)
  /-- A string. -/
  | string (text : String)
  /-- An array. -/
  | array (items : List Json)
  /-- An object; the members may repeat a name. -/
  | object (members : List (String × Json))

namespace Json

/-- A count as a JSON number. -/
def natural (value : Nat) : Json :=
  .integer value

/-- A number in JSON, which has no infinities: they and what is no number become `null`. -/
def number (value : Binary64) : Json :=
  if value.isFinite then .double value else .null

/-- Numbers are written positionally as long as their first digit stands for at least `1e-5`
and at most `1e15`. -/
def numberLayout : DecimalLayout :=
  ⟨-5, 15⟩

/-- The text of a number. -/
def numberText (value : Binary64) : String :=
  if value.isFinite then numberLayout.renderNumber value else "null"

/-- The digits of an integer. -/
def integerText (value : Int) : String :=
  let digits := Nat.toDigits 10 value.natAbs
  String.ofList (if value < 0 then '-' :: digits else digits)

/-- One character inside a string. Only the quote, the backslash and control characters are
escaped. -/
def stringChar (c : Char) : List Char :=
  match c with
  | '"' => ['\\', '"']
  | '\\' => ['\\', '\\']
  | '\x08' => ['\\', 'b']
  | '\x0c' => ['\\', 'f']
  | '\n' => ['\\', 'n']
  | '\r' => ['\\', 'r']
  | '\t' => ['\\', 't']
  | c =>
    if c < ' ' then
      ['\\', 'u', '0', '0', if c.toNat < 16 then '0' else '1', Nat.digitChar (c.toNat % 16)]
    else [c]

/-- A string with its quotes. -/
def stringText (text : String) : String :=
  String.ofList ('"' :: text.toList.flatMap stringChar ++ ['"'])

mutual

/-- The text of a value without any whitespace. -/
def compact : Json → String
  | .null => "null"
  | .bool true => "true"
  | .bool false => "false"
  | .integer value => integerText value
  | .double value => numberText value
  | .string text => stringText text
  | .array items => "[" ++ ",".intercalate (compactItems items) ++ "]"
  | .object members => "\x7b" ++ ",".intercalate (compactMembers members) ++ "\x7d"

/-- The texts of the items of an array. -/
def compactItems : List Json → List String
  | [] => []
  | item :: items => compact item :: compactItems items

/-- The texts of the members of an object. -/
def compactMembers : List (String × Json) → List String
  | [] => []
  | (name, value) :: members =>
    (stringText name ++ ":" ++ compact value) :: compactMembers members

end

/-- The line break before something that stands at a level of indentation: two spaces for each
level. -/
def newline (level : Nat) : String :=
  String.ofList ('\n' :: List.replicate (2 * level) ' ')

/-- Texts on lines of their own between brackets; brackets around nothing stay together. -/
def block (opener closer : String) (level : Nat) (texts : List String) : String :=
  if texts.isEmpty then opener ++ closer
  else
    opener ++ newline (level + 1) ++ ("," ++ newline (level + 1)).intercalate texts ++
      newline level ++ closer

mutual

/-- The text of a value at a level of indentation, with every item and member on a line of its
own. -/
def indented (level : Nat) : Json → String
  | .null => "null"
  | .bool true => "true"
  | .bool false => "false"
  | .integer value => integerText value
  | .double value => numberText value
  | .string text => stringText text
  | .array items => block "[" "]" level (indentedItems (level + 1) items)
  | .object members => block "\x7b" "\x7d" level (indentedMembers (level + 1) members)

/-- The texts of the items of an array. -/
def indentedItems (level : Nat) : List Json → List String
  | [] => []
  | item :: items => indented level item :: indentedItems level items

/-- The texts of the members of an object. -/
def indentedMembers (level : Nat) : List (String × Json) → List String
  | [] => []
  | (name, value) :: members =>
    (stringText name ++ ": " ++ indented level value) :: indentedMembers level members

end

/-- The text of a value over several lines, indented by two spaces. -/
def pretty (value : Json) : String :=
  indented 0 value

end Json

end Mcfunction
