import Mcfunction.Catalogue.Lexeme
import Mcfunction.Catalogue.Tables

/-!
# What Generated Source Text Says

How a compiler reads the generated files: a match expression over an id as its arms, of which
the first that admits the id gives the result, and a file of constants as the constants with
their documentation.
-/

namespace Mcfunction.Catalogue

/-! ### Match expressions -/

/-- Which ids an arm is for. -/
inductive Pattern where
  /-- This one. -/
  | literal (text : String)
  /-- All that come so far. -/
  | wildcard
deriving DecidableEq

/-- Whether an id fits a pattern. -/
def Pattern.admits : Pattern → String → Bool
  | .literal text, id => text == id
  | .wildcard, _ => true

/-- What an expression without variables stands for. -/
inductive Value where
  /-- A text. -/
  | text (text : String)
  /-- A variant of an enumeration. -/
  | variant (type name : String)
deriving DecidableEq

/-- The value of a severity. -/
def Value.ofSeverity : Severity → Value
  | .error => .variant "Severity" "Error"
  | .warn => .variant "Severity" "Warn"

/-- One arm of a match expression. -/
structure Arm where
  /-- Which ids it is for. -/
  pattern : Pattern
  /-- What it gives, if anything. -/
  result : Option Value
deriving DecidableEq

namespace Arm

/-- The pattern that a lexeme is. -/
def pattern? : Lexeme → Option Pattern
  | .literal text => some (.literal text)
  | .word name => if name = "_" then some .wildcard else none
  | _ => none

/-- The value between the parentheses of `Some`. -/
def value? : List Lexeme → Option Value
  | [.literal text] => some (.text text)
  | [.word type, .doubleColon, .word name] => some (.variant type name)
  | _ => none

/-- The result behind the arrow of an arm. -/
def result? : List Lexeme → Option (Option Value)
  | [.word name] => if name = "None" then some none else none
  | .word name :: .openParen :: lexemes =>
    if name = "Some" ∧ lexemes.getLast? = some .closeParen then
      (value? lexemes.dropLast).map some
    else none
  | _ => none

/-- An arm without the comma behind it. -/
def ofLexemes? : List Lexeme → Option Arm
  | lexeme :: .arrow :: lexemes => do return ⟨← pattern? lexeme, ← result? lexemes⟩
  | _ => none

/-- The arms up to the closing brace of a match expression that ends a text. `read` holds the
lexemes of an arm before, the last one first. -/
def allFrom? (read : List Lexeme) : List Lexeme → Option (List Arm)
  | [] => none
  | [.closeBrace] =>
    match read with
    | [] => some []
    | read => (ofLexemes? read.reverse).map ([·])
  | .comma :: lexemes =>
    (ofLexemes? read.reverse).bind fun arm => (allFrom? [] lexemes).map (arm :: ·)
  | lexeme :: lexemes => allFrom? (lexeme :: read) lexemes

/-- The arms of a match expression over an id. -/
def all? (text : String) : Option (List Arm) := do
  match ← Lexeme.all? text with
  | .word keyword :: .word subject :: .openBrace :: lexemes =>
    if keyword = "match" ∧ subject = "id" then allFrom? [] lexemes else none
  | _ => none

/-- What a match expression with these arms gives for an id: the result of the first arm that
admits it. There is none if the arms are not exhaustive. -/
def evaluate? (arms : List Arm) (id : String) : Option (Option Value) :=
  (arms.find? fun arm => arm.pattern.admits id).map Arm.result

end Arm

/-! ### Constants -/

/-- A constant of a generated file. -/
structure Constant where
  /-- The lines that document it. -/
  notes : List String
  /-- The name. -/
  name : String
  /-- The text that it stands for. -/
  value : String
deriving DecidableEq

namespace Constant

/-- The constants of a file. `notes` holds the documentation before the next one. -/
def allFrom? (notes : List String) : List Lexeme → Option (List Constant)
  | [] => if notes = [] then some [] else none
  | .note line :: lexemes => allFrom? (notes ++ [line]) lexemes
  | .word visibility :: .word keyword :: .word name :: .colon :: .ampersand :: .word type ::
      .equals :: .literal value :: .semicolon :: lexemes =>
    if visibility = "pub" ∧ keyword = "const" ∧ type = "str" then
      (allFrom? [] lexemes).map (⟨notes, name, value⟩ :: ·)
    else none
  | _ => none

/-- The constants of a file. -/
def all? (text : String) : Option (List Constant) :=
  (Lexeme.all? text).bind (allFrom? [])

end Constant

end Mcfunction.Catalogue
