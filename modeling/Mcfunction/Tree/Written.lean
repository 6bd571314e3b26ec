import Mcfunction.Tree.Leaf

/-!
# The Text of NBT Trees

`written` is the text of a value, a list or a compound in its shortest form: a comma between
elements, the operator between a key and its value, and no blank anywhere.

`unplaced` is a tree that has forgotten where it stands. Two trees are the same up to places
if they are the same once they have forgotten them.
-/

namespace Mcfunction

/-! ### Writing -/

/-- The text between the quotes, if there are any. -/
def StringLiteral.written (literal : StringLiteral) : List Char :=
  match literal.quote.char? with
  | some quote => quote :: (literal.value.toList ++ [quote])
  | none => literal.value.toList

/-- The mark of a quote says which quote it is. -/
theorem Quote.char?_eq_some {quote : Quote} {mark : Char} (h : quote.char? = some mark) :
    quote = .double ∧ mark = '"' ∨ quote = .single ∧ mark = '\'' := by
  cases quote <;> cases h <;> simp

/-- The mark of a quote is one of two characters. -/
theorem Quote.mark_cases {quote : Quote} {mark : Char} (h : quote.char? = some mark) :
    mark = '"' ∨ mark = '\'' :=
  (Quote.char?_eq_some h).imp And.right And.right

/-- The text of a namespace and a path. -/
def ResourceLocation.written (location : ResourceLocation) : List Char :=
  location.space.toList ++ ':' :: location.path.toList

/-- The word for a truth value. -/
def Boolean.written (boolean : Boolean) : List Char :=
  (if boolean.value then "true" else "false").toList

/-- The source text of an argument with interpolations. -/
def Interpolated.written (argument : Interpolated) : List Char :=
  argument.source.toList

/-- The text of a key. -/
def NbtKey.written : NbtKey → List Char
  | .plain literal => literal.written
  | .interpolated argument => argument.written

mutual

/-- The text of a value. Nothing is left of the text of a container that could not be parsed. -/
def NbtValue.written : NbtValue → List Char
  | .string literal => literal.written
  | .number number => number.raw.toList
  | .resource location => location.written
  | .list list => list.written
  | .compound compound => compound.written
  | .boolean boolean => boolean.written
  | .interpolated argument => argument.written
  | .error _ => []

/-- The text of the elements of a list. -/
def NbtItems.written : NbtItems → List Char
  | .pairs pairs => [','].intercalate (NbtPair.allWritten pairs)
  | .values values => [','].intercalate (NbtValue.allWritten values)

/-- The text of a list. -/
def NbtList.written : NbtList → List Char
  | ⟨items, _⟩ => '[' :: (items.written ++ [']'])

/-- The text of a compound. -/
def NbtCompound.written : NbtCompound → List Char
  | ⟨pairs, _⟩ => '{' :: ([','].intercalate (NbtPair.allWritten pairs) ++ ['}'])

/-- The text of a pair. -/
def NbtPair.written : NbtPair → List Char
  | ⟨key, operator, value, _⟩ => key.written ++ operator.char :: value.written

/-- The texts of several pairs. -/
def NbtPair.allWritten : List NbtPair → List (List Char)
  | [] => []
  | pair :: pairs => pair.written :: NbtPair.allWritten pairs

/-- The texts of several values. -/
def NbtValue.allWritten : List NbtValue → List (List Char)
  | [] => []
  | value :: values => value.written :: NbtValue.allWritten values

end

/-- Pairs are written one by one. -/
theorem NbtPair.allWritten_eq_map (pairs : List NbtPair) :
    NbtPair.allWritten pairs = pairs.map NbtPair.written := by
  induction pairs with
  | nil => rfl
  | cons pair pairs ih => rw [NbtPair.allWritten, ih, List.map_cons]

/-- Values are written one by one. -/
theorem NbtValue.allWritten_eq_map (values : List NbtValue) :
    NbtValue.allWritten values = values.map NbtValue.written := by
  induction values with
  | nil => rfl
  | cons value values ih => rw [NbtValue.allWritten, ih, List.map_cons]

/-- A list is written between square brackets. -/
theorem NbtList.written_eq (list : NbtList) :
    list.written = '[' :: (list.items.written ++ [']']) := by
  obtain ⟨items, span⟩ := list
  rfl

/-- A compound is written between curly braces, with commas between its pairs. -/
theorem NbtCompound.written_eq (compound : NbtCompound) :
    compound.written =
      '{' :: ([','].intercalate (compound.pairs.map NbtPair.written) ++ ['}']) := by
  obtain ⟨pairs, span⟩ := compound
  rw [NbtCompound.written, NbtPair.allWritten_eq_map]

/-! ### Forgetting places -/

/-- The span of what stands nowhere. -/
def Span.nowhere : Span :=
  .empty 0

/-- The same message, placed nowhere. -/
def ErrorNode.unplaced (node : ErrorNode) : ErrorNode :=
  { node with span := .nowhere }

/-- The same string, placed nowhere. -/
def StringLiteral.unplaced (literal : StringLiteral) : StringLiteral :=
  { literal with span := .nowhere }

/-- The same number, placed nowhere. -/
def Number.unplaced (number : Number) : Number :=
  { number with span := .nowhere }

/-- The same resource location, placed nowhere. -/
def ResourceLocation.unplaced (location : ResourceLocation) : ResourceLocation :=
  { location with span := .nowhere }

/-- The same truth value, placed nowhere. -/
def Boolean.unplaced (boolean : Boolean) : Boolean :=
  { boolean with span := .nowhere }

/-- The same piece of an interpolated argument, placed nowhere. -/
def Fragment.unplaced : Fragment → Fragment
  | .literal run => .literal { run with span := .nowhere }
  | .interpolation piece => .interpolation { piece with span := .nowhere }
  | .quoted run => .quoted { run with span := .nowhere }

/-- The same text with interpolations, placed nowhere. -/
def Interpolated.unplaced (argument : Interpolated) : Interpolated :=
  ⟨argument.fragments.map Fragment.unplaced, argument.quote, .nowhere⟩

/-- The same key, placed nowhere. -/
def NbtKey.unplaced : NbtKey → NbtKey
  | .plain literal => .plain literal.unplaced
  | .interpolated argument => .interpolated argument.unplaced

mutual

/-- The same value, placed nowhere. -/
def NbtValue.unplaced : NbtValue → NbtValue
  | .string literal => .string literal.unplaced
  | .number number => .number number.unplaced
  | .resource location => .resource location.unplaced
  | .list list => .list list.unplaced
  | .compound compound => .compound compound.unplaced
  | .boolean boolean => .boolean boolean.unplaced
  | .interpolated argument => .interpolated argument.unplaced
  | .error node => .error node.unplaced

/-- The same elements, placed nowhere. -/
def NbtItems.unplaced : NbtItems → NbtItems
  | .pairs pairs => .pairs (NbtPair.allUnplaced pairs)
  | .values values => .values (NbtValue.allUnplaced values)

/-- The same list, placed nowhere. -/
def NbtList.unplaced : NbtList → NbtList
  | ⟨items, _⟩ => ⟨items.unplaced, .nowhere⟩

/-- The same compound, placed nowhere. -/
def NbtCompound.unplaced : NbtCompound → NbtCompound
  | ⟨pairs, _⟩ => ⟨NbtPair.allUnplaced pairs, .nowhere⟩

/-- The same pair, placed nowhere. -/
def NbtPair.unplaced : NbtPair → NbtPair
  | ⟨key, operator, value, _⟩ => ⟨key.unplaced, operator, value.unplaced, .nowhere⟩

/-- The same pairs, placed nowhere. -/
def NbtPair.allUnplaced : List NbtPair → List NbtPair
  | [] => []
  | pair :: pairs => pair.unplaced :: NbtPair.allUnplaced pairs

/-- The same values, placed nowhere. -/
def NbtValue.allUnplaced : List NbtValue → List NbtValue
  | [] => []
  | value :: values => value.unplaced :: NbtValue.allUnplaced values

end

/-- Pairs lose their spans one by one. -/
theorem NbtPair.allUnplaced_eq_map (pairs : List NbtPair) :
    NbtPair.allUnplaced pairs = pairs.map NbtPair.unplaced := by
  induction pairs with
  | nil => rfl
  | cons pair pairs ih => rw [NbtPair.allUnplaced, ih, List.map_cons]

/-- Values lose their spans one by one. -/
theorem NbtValue.allUnplaced_eq_map (values : List NbtValue) :
    NbtValue.allUnplaced values = values.map NbtValue.unplaced := by
  induction values with
  | nil => rfl
  | cons value values ih => rw [NbtValue.allUnplaced, ih, List.map_cons]

/-- The argument that a list or compound makes. -/
def NbtValue.argument? : NbtValue → Option Argument
  | .list inner => some (.list inner)
  | .compound inner => some (.compound inner)
  | .string _ | .number _ | .resource _ | .boolean _ | .interpolated _ | .error _ => none

end Mcfunction
