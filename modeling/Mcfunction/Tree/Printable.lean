import Mcfunction.Binary64.Decimal
import Mcfunction.Scan.Number
import Mcfunction.Tree.Basic
import Mcfunction.Tree.Leaf

/-!
# Printable NBT Trees

The trees whose text says all there is to know of them: strings in quotes, numerals with an
optional type letter, truth values, resource locations, and lists and compounds of them. The
rules say which texts the parts of such a tree are made of.

A list of values does not start with a resource location, since `[a:b]` is a list of one pair.
-/

namespace Mcfunction

/-- One or more characters, all of one class. -/
def Row (inClass : Char → Bool) (chars : List Char) : Prop :=
  chars ≠ [] ∧ ∀ c ∈ chars, inClass c

instance (inClass : Char → Bool) (chars : List Char) : Decidable (Row inClass chars) :=
  decidable_of_bool (!chars.isEmpty && chars.all inClass) (by simp [Row])

/-- What may stand between two quotes: the quote itself, a backslash or a `$` only after a
backslash, and no line break. -/
inductive QuotedBody (quote : Char) : List Char → Prop
  /-- Nothing. -/
  | nil : QuotedBody quote []
  /-- A character that stands for itself. -/
  | plain {c chars} : c ≠ quote → c ≠ '\\' → c ≠ '$' → c ≠ '\n' → QuotedBody quote chars →
      QuotedBody quote (c :: chars)
  /-- A backslash and the character that it escapes. -/
  | escape {c chars} : c ≠ '\n' → QuotedBody quote chars → QuotedBody quote ('\\' :: c :: chars)

/-- An unsigned mantissa. -/
inductive Mantissa : List Char → Prop
  /-- `12` -/
  | whole {digits} : Row Char.isDigit digits → Mantissa digits
  /-- `1.5` -/
  | decimal {whole fraction} : Row Char.isDigit whole → Row Char.isDigit fraction →
      Mantissa (whole ++ '.' :: fraction)
  /-- `.5` -/
  | fraction {digits} : Row Char.isDigit digits → Mantissa ('.' :: digits)

/-- An optional exponent. -/
inductive Exponent : List Char → Prop
  /-- No exponent. -/
  | absent : Exponent []
  /-- `e12`, `E+12` or `e-12` -/
  | present {letter sign digits} : letter = 'e' ∨ letter = 'E' →
      sign = [] ∨ sign = ['+'] ∨ sign = ['-'] → Row Char.isDigit digits →
      Exponent (letter :: (sign ++ digits))

/-- A numeral without a type letter. -/
inductive Numeral : List Char → Prop
  /-- A numeral without a sign. -/
  | positive {mantissa exponent} : Mantissa mantissa → Exponent exponent →
      Numeral (mantissa ++ exponent)
  /-- A numeral with a minus sign. -/
  | negative {mantissa exponent} : Mantissa mantissa → Exponent exponent →
      Numeral ('-' :: (mantissa ++ exponent))

/-- One or more segments with slashes between them. -/
inductive ResourcePath : List Char → Prop
  /-- The last segment. -/
  | last {segment} : Row Scan.isPathChar segment → ResourcePath segment
  /-- A segment and the path after it. -/
  | more {segment path} : Row Scan.isPathChar segment → ResourcePath path →
      ResourcePath (segment ++ '/' :: path)

/-- A string in quotes. -/
def StringLiteral.Quoted (literal : StringLiteral) : Prop :=
  ∃ quote, literal.quote.char? = some quote ∧ QuotedBody quote literal.value.toList

/-- A number whose text is a numeral and an optional type letter, and whose value is the one that
the numeral writes. -/
def Number.Printable (number : Number) : Prop :=
  ∃ digits, Numeral digits ∧ (∀ letter ∈ number.suffix, Scan.isSuffixLetter letter) ∧
    number.raw.toList = digits ++ number.suffix.toList ∧
    Binary64.ofChars? digits = some number.value

/-- A resource location made of a word and a path. -/
structure ResourceLocation.Printable (location : ResourceLocation) : Prop where
  /-- The namespace is a word. -/
  space : Row Scan.isWordChar location.space.toList
  /-- The path has no empty segment. -/
  path : ResourcePath location.path.toList

/-- A key without interpolations. -/
inductive NbtKey.Printable : NbtKey → Prop
  /-- A string in quotes. -/
  | quoted {literal} : literal.Quoted → NbtKey.Printable (.plain literal)
  /-- A bare word. -/
  | bare {word span} : Row Scan.isWordChar word.toList →
      NbtKey.Printable (.plain ⟨word, .bare, span⟩)

mutual

/-- A value that is told by its text. -/
inductive NbtValue.Printable : NbtValue → Prop
  /-- A string in quotes. -/
  | string {literal} : literal.Quoted → NbtValue.Printable (.string literal)
  /-- A number. -/
  | number {number} : number.Printable → NbtValue.Printable (.number number)
  /-- A resource location. -/
  | resource {location} : location.Printable → NbtValue.Printable (.resource location)
  /-- A truth value. -/
  | boolean {boolean} : NbtValue.Printable (.boolean boolean)
  /-- A list. -/
  | list {list} : NbtList.Printable list → NbtValue.Printable (.list list)
  /-- A compound. -/
  | compound {compound} : NbtCompound.Printable compound → NbtValue.Printable (.compound compound)

/-- A list that is told by its text. -/
inductive NbtList.Printable : NbtList → Prop
  /-- One or more pairs. -/
  | pairs {pairs span} : pairs ≠ [] → (∀ pair ∈ pairs, NbtPair.Printable pair) →
      NbtList.Printable ⟨.pairs pairs, span⟩
  /-- Values, of which the first is no resource location; there may be none at all. -/
  | values {values span} : (∀ location, values.head? ≠ some (.resource location)) →
      (∀ value ∈ values, NbtValue.Printable value) → NbtList.Printable ⟨.values values, span⟩

/-- A compound that is told by its text. -/
inductive NbtCompound.Printable : NbtCompound → Prop
  /-- One or more pairs. -/
  | mk {pairs span} : pairs ≠ [] → (∀ pair ∈ pairs, NbtPair.Printable pair) →
      NbtCompound.Printable ⟨pairs, span⟩

/-- A pair that is told by its text. -/
inductive NbtPair.Printable : NbtPair → Prop
  /-- A key, an operator and a value. -/
  | mk {key operator value span} : key.Printable → NbtValue.Printable value →
      NbtPair.Printable ⟨key, operator, value, span⟩

end

end Mcfunction
