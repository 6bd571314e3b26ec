import Mcfunction.Parser.Leaf

/-!
# Parsing NBT Containers

Lists, compounds, the pairs and values in them, and paths.

Containers nest, so their parsers take the number of levels that are left, and `value` is
defined by recursion on that number: with no level left every container is too deep, and one
level more lets containers hold the values of one level less. The parsers of a single level
take the parser of the values inside as an argument.

An error in a scalar value passes to the container around it. A container in value position
recovers on its own in tolerant mode, so a broken inner list leaves its parent whole.
-/

namespace Mcfunction

namespace Scan

/-- The end of the key of a pair, read ahead. -/
def pairKey (chars : List Char) : Option Nat :=
  if startsQuoted chars then
    match quoted chars with
    | .ok quoted => some quoted.count
    | .error _ => none
  else if startsInterpolated true chars then interpolatedKey chars
  else word chars

/-- Whether a character joins a key and a value. -/
def isOperator (c : Char) : Bool :=
  (PairOperator.ofChar? c).isSome

/-- Whether a key and an operator stand here. -/
def startsPair (chars : List Char) : Bool :=
  match pairKey chars with
  | none => false
  | some count =>
    let tail := chars.drop count
    (tail.drop (trivia tail)).head?.any isOperator

end Scan

namespace Parser

/-! ### Inside a container -/

/-- Fails because the container opened at `opener` is not closed before the cursor. -/
def unclosed {α : Type} (bracket : Bracket) (opener : Cursor) : Parser α := do
  let count := opener.rest.length - (← here).rest.length
  let trimmed := Scan.trimEnd (opener.rest.take count)
  failAt (.unclosed bracket) opener.offset
    (max (opener.offset + byteWidth trimmed) (opener.offset + 1))

/-- Fails if the statement ends where an element should stand. -/
def expectContent (bracket : Bracket) (opener : Cursor) : Parser Unit := do
  if Scan.atLineEnd (← here).rest then unclosed bracket opener else pure ()

/-- Reads what stands after an element: the closing bracket (`true`), or a comma before the
next element (`false`). -/
def separator (bracket : Bracket) (opener : Cursor) : Parser Bool := do
  skipTrivia
  let start ← here
  match start.peek with
  | none => unclosed bracket opener
  | some c =>
    if c == ',' then
      take 1
      skipTrivia
      if (← here).peek == some bracket.closer then
        failAt .trailingComma start.offset (start.offset + 1)
      else
        expectContent bracket opener
        return false
    else if c == bracket.closer then
      take 1
      return true
    else if c == '\n' || c == ']' || c == '}' then unclosed bracket opener
    else failAt .missingComma start.offset start.charEnd

/-- One or more elements up to the closing bracket. -/
def elements {α : Type} (element : Parser α) (bracket : Bracket) (opener : Cursor) :
    Nat → Parser (List α)
  | 0 => breakOff .stalled
  | fuel + 1 => do
    let first ← element
    let closed ← separator bracket opener
    if closed then return [first]
    else return first :: (← elements element bracket opener fuel)

/-- The key of a pair, or the name of a path segment. -/
def key : Parser NbtKey := do
  let start ← here
  if Scan.startsInterpolated true start.rest then
    return .interpolated (← interpolated true)
  else if Scan.startsQuoted start.rest then
    return .plain (← quotedString)
  else
    match Scan.word start.rest with
    | some count => return .plain (← bareString count)
    | none => unexpected .key

/-- The operator of a pair. -/
def operator : Parser PairOperator := do
  let start ← here
  match start.peek.bind PairOperator.ofChar? with
  | some operator =>
    take 1
    return operator
  | none =>
    failAt .missingOperator start.offset
      (if Scan.atLineEnd start.rest then start.offset else start.charEnd)

/-- A pair with a value of the level inside. -/
def pair (value : Parser NbtValue) : Parser NbtPair := do
  let start ← here
  let key ← key
  skipTrivia
  let operator ← operator
  skipTrivia
  let value ← value
  return ⟨key, operator, value, ← spanFrom start.offset⟩

/-- A list that holds values of the level inside. -/
def listOf (value : Parser NbtValue) : Parser NbtList := do
  let opener ← here
  take 1
  skipTrivia
  let content ← here
  if content.peek == some ']' then
    take 1
    return ⟨.values [], ← spanFrom opener.offset⟩
  else
    expectContent .square opener
    let fuel := content.rest.length + 1
    let items ←
      if Scan.startsPair content.rest then
        NbtItems.pairs <$> elements (pair value) .square opener fuel
      else NbtItems.values <$> elements value .square opener fuel
    return ⟨items, ← spanFrom opener.offset⟩

/-- A compound that holds values of the level inside. -/
def compoundOf (value : Parser NbtValue) : Parser NbtCompound := do
  let opener ← here
  take 1
  skipTrivia
  let content ← here
  if content.peek == some '}' then
    failAt .emptyCompound opener.offset (content.offset + 1)
  else
    expectContent .curly opener
    let pairs ← elements (pair value) .curly opener (content.rest.length + 1)
    return ⟨pairs, ← spanFrom opener.offset⟩

/-! ### Values -/

/-- A value that is neither quoted nor interpolated nor a container: a resource location, a
number, a truth value or a bare word, whichever is longest. -/
def scalar : Parser NbtValue := do
  let start ← here
  let location :=
    (Scan.resourceNamespace start.rest).bind fun space =>
      (Scan.path (start.rest.drop (space + 1))).map fun path => (space, path)
  match location, Scan.wholeNumber start.rest, Scan.word start.rest with
  | some (space, path), _, _ => return .resource (← resourceLocation space path)
  | none, some (count, suffix), _ => return .number (← number count suffix)
  | none, none, some count =>
    let word ← bareString count
    match word.value with
    | "true" => return .boolean ⟨true, word.span⟩
    | "false" => return .boolean ⟨false, word.span⟩
    | _ => return .string word
  | none, none, none => unexpected .value

/-- A value, given the parsers of lists and compounds in value position. -/
def valueOf (list : Parser NbtList) (compound : Parser NbtCompound) : Parser NbtValue := do
  let start ← here
  if Scan.startsInterpolated false start.rest then
    return .interpolated (← interpolated false)
  else
    match start.peek with
    | some '"' | some '\'' => return .string (← quotedString)
    | some '[' => orPlaceholder (NbtValue.list <$> list) .error
    | some '{' => orPlaceholder (NbtValue.compound <$> compound) .error
    | none | some '\n' | some ',' | some ']' | some '}' =>
      fail ⟨.missingValue, .empty start.offset⟩
    | some _ => scalar

/-- A container that nests too deep is reported at its opening bracket. -/
def containerTooDeep {α : Type} : Parser α := do
  tooDeep (← here)

/-- A value with `room` levels left for containers. -/
def value : Nat → Parser NbtValue
  | 0, settings, cursor => valueOf containerTooDeep containerTooDeep settings cursor
  | room + 1, settings, cursor =>
    valueOf (listOf (value room)) (compoundOf (value room)) settings cursor

/-- A list with `room` levels left for containers, its own included. -/
def list : Nat → Parser NbtList
  | 0 => containerTooDeep
  | room + 1 => listOf (value room)

/-- A compound with `room` levels left for containers, its own included. -/
def compound : Nat → Parser NbtCompound
  | 0 => containerTooDeep
  | room + 1 => compoundOf (value room)

/-- The parsers of the lists and compounds in an argument. -/
structure Containers where
  /-- The parser of a list. -/
  list : Parser NbtList
  /-- The parser of a compound. -/
  compound : Parser NbtCompound

/-- Lists and compounds with `room` levels left for containers, their own included. -/
def containers (room : Nat) : Containers :=
  ⟨list room, compound room⟩

/-! ### Paths -/

/-- Whether what follows a name makes it a segment of a path. -/
def startsPathSuffix (chars : List Char) : Bool :=
  match chars with
  | '.' :: _ => true
  | '[' :: _ => true
  | '{' :: _ => true
  | _ => false

/-- The lists and compounds that directly follow a segment's name. -/
def suffixes (inside : Containers) : Nat → Parser (List PathSuffix)
  | 0 => breakOff .stalled
  | fuel + 1 => do
    match (← here).peek with
    | some '[' =>
      let index ← inside.list
      return .index index :: (← suffixes inside fuel)
    | some '{' =>
      let filter ← inside.compound
      return .filter filter :: (← suffixes inside fuel)
    | _ => return []

/-- The name of a segment after a point. -/
def segmentName : Parser NbtKey := do
  let start ← here
  if Scan.startsQuoted start.rest || Scan.startsInterpolated true start.rest ||
      (Scan.word start.rest).isSome then
    key
  else unexpected .segment

/-- The segments of a path from the one whose name has just been read. -/
def segments (inside : Containers) : Nat → NbtKey → Parser (List PathSegment)
  | 0, _ => breakOff .stalled
  | fuel + 1, name => do
    let start ← here
    let suffixes ← suffixes inside (start.rest.length + 1)
    let segment : PathSegment := ⟨name, suffixes, ← spanFrom name.span.start⟩
    if (← here).peek == some '.' then
      take 1
      let next ← segmentName
      return segment :: (← segments inside fuel next)
    else return [segment]

/-- The path whose first name has just been read. -/
def pathFrom (inside : Containers) (name : NbtKey) : Parser NbtPath := do
  let start ← here
  let segments ← segments inside (start.rest.length + 1) name
  return ⟨segments, ← spanFrom name.span.start⟩

end Parser

end Mcfunction
