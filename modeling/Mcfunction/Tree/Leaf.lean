import Mcfunction.Tree.Basic

/-!
# Reading Leaves

What the leaves of a tree mean: the characters that stand for selector targets, operators and
quotes, the text of a string once its escapes are resolved, the segments of a resource path,
and the source text of an interpolated argument.
-/

namespace Mcfunction

/-- The character that encloses a string of this kind. -/
def Quote.char? : Quote → Option Char
  | .double => some '"'
  | .single => some '\''
  | .bare => none

/-- The text of a string between its quotes with its escapes resolved: `\n`, `\t` and `\r` are
control characters, and any other escaped character stands for itself. -/
def unescapeChars : List Char → List Char
  | [] => []
  | '\\' :: [] => ['\\']
  | '\\' :: 'n' :: chars => '\n' :: unescapeChars chars
  | '\\' :: 't' :: chars => '\t' :: unescapeChars chars
  | '\\' :: 'r' :: chars => '\r' :: unescapeChars chars
  | '\\' :: c :: chars => c :: unescapeChars chars
  | c :: chars => c :: unescapeChars chars

/-- The value of a string with its escapes resolved. -/
def StringLiteral.unescaped (literal : StringLiteral) : String :=
  String.ofList (unescapeChars literal.value.toList)

/-- The pieces of `chars` between occurrences of `separator`; there is always one. -/
def splitChars (separator : Char) : List Char → List (List Char)
  | [] => [[]]
  | c :: chars =>
    if c = separator then [] :: splitChars separator chars
    else
      match splitChars separator chars with
      | [] => [[c]]
      | piece :: pieces => (c :: piece) :: pieces

/-- The segments of a resource path. -/
def ResourceLocation.segments (location : ResourceLocation) : List String :=
  (splitChars '/' location.path.toList).map String.ofList

namespace SelectorTarget

/-- The target for the letter after the `@`. -/
def ofChar? : Char → Option SelectorTarget
  | 'p' => some .nearestPlayer
  | 'a' => some .allPlayers
  | 'r' => some .randomPlayer
  | 's' => some .executor
  | 'e' => some .allEntities
  | 'n' => some .nearestEntity
  | _ => none

/-- The letter after the `@`. -/
def char : SelectorTarget → Char
  | .nearestPlayer => 'p'
  | .allPlayers => 'a'
  | .randomPlayer => 'r'
  | .executor => 's'
  | .allEntities => 'e'
  | .nearestEntity => 'n'

end SelectorTarget

namespace PairOperator

/-- The operator that a character stands for. -/
def ofChar? : Char → Option PairOperator
  | '=' => some .equals
  | '~' => some .tilde
  | ':' => some .colon
  | _ => none

/-- The character of the operator. -/
def char : PairOperator → Char
  | .equals => '='
  | .tilde => '~'
  | .colon => ':'

end PairOperator

/-- The value of an absolute part, or the offset of another one if it has any. -/
def CoordinatePart.amount : CoordinatePart → Option Binary64
  | .absolute value _ _ => some value
  | .relative offset _ => offset
  | .localTo offset _ => offset

/-- The text of a plain key. -/
def NbtKey.text? : NbtKey → Option String
  | .plain literal => some literal.value
  | .interpolated _ => none

/-- The number of elements. -/
def NbtItems.length : NbtItems → Nat
  | .pairs elements => elements.length
  | .values elements => elements.length

/-- Whether there are no elements. -/
def NbtItems.isEmpty (items : NbtItems) : Bool :=
  items.length == 0

namespace PathSegment

/-- The lists after the name, in order. -/
def indices (segment : PathSegment) : List NbtList :=
  segment.suffixes.filterMap fun
    | .index list => some list
    | .filter _ => none

/-- The compounds after the name, in order. -/
def filters (segment : PathSegment) : List NbtCompound :=
  segment.suffixes.filterMap fun
    | .filter compound => some compound
    | .index _ => none

end PathSegment

/-- The source text of a fragment. -/
def Fragment.source : Fragment → String
  | .literal run => run.text
  | .quoted run => run.text
  | .interpolation piece => "$(" ++ piece.expression ++ ")"

namespace Interpolated

/-- The interpolations in order. -/
def interpolations (argument : Interpolated) : List Interpolation :=
  argument.fragments.filterMap fun
    | .interpolation piece => some piece
    | _ => none

/-- The source text of the whole argument: its fragments between its quotes. -/
def source (argument : Interpolated) : String :=
  let quote := (argument.quote.char?.map String.singleton).getD ""
  quote ++ String.join (argument.fragments.map Fragment.source) ++ quote

end Interpolated

end Mcfunction
