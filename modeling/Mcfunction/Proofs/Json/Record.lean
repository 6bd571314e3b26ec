import Mcfunction.Tree.Decode
import Mcfunction.Tree.Finite

/-!
# Leaves Read Back from JSON

What is written of a leaf is read as the leaf. A number that must be there is written as `null`
if it is not finite, and then nothing is read (`Number.ofJson?_toJson`); an offset that is not
finite is read as missing (`CoordinatePart.ofJson?_toJson`). Everything else is read back as it
was.

Most nodes come with a first member that says of which kind they are. It is taken apart from the
others again because no other member has its name (`Json.variant?_tagged`).
-/

namespace Mcfunction

/-! ### Results under a condition -/

/-- A value, provided that something holds. -/
def given {α : Type} (holds : Bool) (value : α) : Option α :=
  if holds then some value else none

variable {α β γ : Type}

/-- Under a condition that holds the value is there. -/
@[simp] theorem given_true (value : α) : given true value = some value := rfl

/-- Under a condition that fails it is not. -/
@[simp] theorem given_false (value : α) : given false value = none := rfl

/-- A condition can be checked before or after a value is turned into another. -/
@[simp] theorem map_given (f : α → β) (holds : Bool) (value : α) :
    (given holds value).map f = given holds (f value) := by
  cases holds <;> rfl

/-- Wrapping up a value under a condition keeps the condition. -/
@[simp] theorem bind_given (f : α → β) (holds : Bool) (value : α) :
    ((given holds value).bind fun x => some (f x)) = given holds (f value) := by
  cases holds <;> rfl

/-- Values that are each read under a condition are read together if all conditions hold. -/
theorem mapM_given {read : β → Option γ} {write : α → β} {holds : α → Bool} {result : α → γ}
    {values : List α}
    (h : ∀ value ∈ values, read (write value) = given (holds value) (result value)) :
    (values.map write).mapM read = given (values.all holds) (values.map result) := by
  induction values with
  | nil => rfl
  | cons value values ih =>
    have hvalue := h value (by simp)
    have hvalues := ih fun other hother => h other (by simp [hother])
    rw [List.map_cons, List.mapM_cons, hvalue, hvalues]
    cases hholds : holds value <;> cases hall : values.all holds <;> simp [hholds, hall]

/-- Values that are all read are read together. -/
theorem mapM_some {read : β → Option α} {write : α → β} {values : List α}
    (h : ∀ value ∈ values, read (write value) = some value) :
    (values.map write).mapM read = some values := by
  have hgiven : (values.map write).mapM read = given (values.all fun _ => true) (values.map id) :=
    mapM_given h
  rwa [List.all_eq_true.mpr fun _ _ => rfl, List.map_id] at hgiven

namespace Json

/-- Whether a value is an object without a member `kind`. -/
def isRecord : Json → Bool
  | .object members => members.all fun member => member.1 != "kind"
  | _ => false

/-- The kind of a node is told apart from its other members. -/
theorem variant?_tagged {kinds : List String} {kind : String} {record : Json}
    (h : record.isRecord) : (record.tagged kind).variant? kinds = some (kind, record) := by
  cases record with
  | object members =>
    have hall : ∀ member ∈ members, member.1 ≠ "kind" := by simpa [isRecord] using h
    have hnone : members.filter (fun member => member.1 == "kind") = [] := by
      rw [List.filter_eq_nil_iff]
      intro member hmember
      simpa using hall member hmember
    have hself : members.filter (fun member => member.1 != "kind") = members := by
      rw [List.filter_eq_self]
      intro member hmember
      simpa using hall member hmember
    simp [tagged, variant?, unique?, label?, hnone, hself]
  | _ => simp [isRecord] at h

/-- A tag does not make a record deeper. -/
theorem depth_tagged {record : Json} (h : record.isRecord) (kind : String) :
    (record.tagged kind).depth = record.depth := by
  cases record with
  | object members => simp [tagged, depth, depthOfMembers]
  | _ => simp [isRecord] at h

/-- A record counts as a level itself. -/
theorem depth_pos {record : Json} (h : record.isRecord) : 0 < record.depth := by
  cases record with
  | object members => exact Nat.succ_pos _
  | _ => simp [isRecord] at h

/-- A finite number is read back. -/
@[simp] theorem double?_number {value : Binary64} (h : value.isFinite) :
    double? (number value) = some value := by
  simp [number, h, double?]

/-- No number is read for one that is not finite. -/
@[simp] theorem double?_number_of_not {value : Binary64} (h : value.isFinite = false) :
    double? (number value) = none := by
  simp [number, h, double?]

/-- An offset that is not finite is dropped. -/
theorem nullable_number (value : Binary64) :
    nullable double? (some (number value)) = some ((some value).filter Binary64.isFinite) := by
  cases h : value.isFinite with
  | false => simp [number, h, nullable, Option.filter]
  | true => simp [number, h, nullable, double?, Option.filter]

end Json

/-! ### Records -/

/-- An error node is written as a record. -/
@[simp] theorem ErrorNode.isRecord_toJson (node : ErrorNode) : node.toJson.isRecord := rfl

/-- A string is written as a record. -/
@[simp] theorem StringLiteral.isRecord_toJson (literal : StringLiteral) :
    literal.toJson.isRecord := rfl

/-- A number is written as a record. -/
@[simp] theorem Number.isRecord_toJson (number : Number) : number.toJson.isRecord := by
  obtain ⟨value, suffix, raw, span⟩ := number
  cases suffix <;> rfl

/-- A resource location is written as a record. -/
@[simp] theorem ResourceLocation.isRecord_toJson (location : ResourceLocation) :
    location.toJson.isRecord := rfl

/-- A truth value is written as a record. -/
@[simp] theorem Boolean.isRecord_toJson (boolean : Boolean) : boolean.toJson.isRecord := rfl

/-- A fake player is written as a record. -/
@[simp] theorem FakePlayer.isRecord_toJson (player : FakePlayer) : player.toJson.isRecord := rfl

/-- A run of characters is written as a record. -/
@[simp] theorem TextRun.isRecord_toJson (run : TextRun) : run.toJson.isRecord := rfl

/-- An interpolation is written as a record. -/
@[simp] theorem Interpolation.isRecord_toJson (piece : Interpolation) :
    piece.toJson.isRecord := rfl

/-- A macro argument is written as a record. -/
@[simp] theorem Interpolated.isRecord_toJson (argument : Interpolated) :
    argument.toJson.isRecord := rfl

/-- Coordinates are written as a record. -/
@[simp] theorem Coordinates.isRecord_toJson (coordinates : Coordinates) :
    coordinates.toJson.isRecord := rfl

/-- A list is written as a record. -/
@[simp] theorem NbtList.isRecord_toJson (list : NbtList) : list.toJson.isRecord := by
  cases list
  rfl

/-- A compound is written as a record. -/
@[simp] theorem NbtCompound.isRecord_toJson (compound : NbtCompound) :
    compound.toJson.isRecord := by
  cases compound
  rfl

/-- A path is written as a record. -/
@[simp] theorem NbtPath.isRecord_toJson (path : NbtPath) : path.toJson.isRecord := rfl

/-- A selector is written as a record. -/
@[simp] theorem Selector.isRecord_toJson (selector : Selector) : selector.toJson.isRecord := by
  obtain ⟨target, filter, span⟩ := selector
  cases filter <;> rfl

/-- A run clause is written as a record. -/
@[simp] theorem RunClause.isRecord_toJson (clause : RunClause) : clause.toJson.isRecord := by
  cases clause
  rfl

/-- A command is written as a record. -/
@[simp] theorem Command.isRecord_toJson (plain : Command) : plain.toJson.isRecord := by
  cases plain
  rfl

/-- A macro command is written as a record. -/
@[simp] theorem MacroCommand.isRecord_toJson (line : MacroCommand) : line.toJson.isRecord := by
  cases line
  rfl

/-- A comment is written as a record. -/
@[simp] theorem Comment.isRecord_toJson (comment : Comment) : comment.toJson.isRecord := by
  obtain ⟨kind, tag, content, key, value, span⟩ := comment
  cases content <;> cases key <;> cases value <;> rfl

/-! ### Leaves -/

/-- A span is read back. -/
@[simp] theorem Span.ofJson?_toJson (span : Span) : Span.ofJson? span.toJson = some span := by
  simp [Span.ofJson?, Span.toJson, Json.parts?, Json.unique?, Json.required, Json.natural?,
    Json.natural]

/-- An error node is read back. -/
@[simp] theorem ErrorNode.ofJson?_toJson (node : ErrorNode) :
    ErrorNode.ofJson? node.toJson = some node := by
  simp [ErrorNode.ofJson?, ErrorNode.toJson, Json.parts?, Json.unique?, Json.required,
    Json.string?]

/-- A quote is read back from its name. -/
@[simp] theorem Quote.ofJson?_name (quote : Quote) :
    Quote.ofJson? (.string quote.name) = some quote := by
  cases quote <;> rfl

/-- A string is read back. -/
@[simp] theorem StringLiteral.ofJson?_toJson (literal : StringLiteral) :
    StringLiteral.ofJson? literal.toJson = some literal := by
  simp [StringLiteral.ofJson?, StringLiteral.toJson, Json.parts?, Json.unique?, Json.required,
    Json.string?]

/-- A number that is not finite is not read back. -/
@[simp] theorem Number.ofJson?_toJson (number : Number) :
    Number.ofJson? number.toJson = given number.value.isFinite number := by
  obtain ⟨value, suffix, raw, span⟩ := number
  cases hfinite : value.isFinite with
  | false =>
    cases suffix <;> simp [Number.ofJson?, Number.toJson, Json.parts?, Json.unique?,
      Json.required, Json.optional, hfinite]
  | true =>
    cases suffix <;> simp [Number.ofJson?, Number.toJson, Json.parts?, Json.unique?,
      Json.required, Json.optional, Json.nullable, suffixToJson, Json.char?, Json.string?, hfinite]

/-- A resource location is read back. -/
@[simp] theorem ResourceLocation.ofJson?_toJson (location : ResourceLocation) :
    ResourceLocation.ofJson? location.toJson = some location := by
  simp [ResourceLocation.ofJson?, ResourceLocation.toJson, Json.parts?, Json.unique?,
    Json.required, Json.string?]

/-- A truth value is read back. -/
@[simp] theorem Boolean.ofJson?_toJson (boolean : Boolean) :
    Boolean.ofJson? boolean.toJson = some boolean := by
  simp [Boolean.ofJson?, Boolean.toJson, Json.parts?, Json.unique?, Json.required, Json.bool?]

/-- A fake player is read back. -/
@[simp] theorem FakePlayer.ofJson?_toJson (player : FakePlayer) :
    FakePlayer.ofJson? player.toJson = some player := by
  simp [FakePlayer.ofJson?, FakePlayer.toJson, Json.parts?, Json.unique?, Json.required,
    Json.string?]

/-- A run of characters is read back. -/
@[simp] theorem TextRun.ofJson?_toJson (run : TextRun) : TextRun.ofJson? run.toJson = some run := by
  simp [TextRun.ofJson?, TextRun.toJson, Json.parts?, Json.unique?, Json.required, Json.string?]

/-- An interpolation is read back. -/
@[simp] theorem Interpolation.ofJson?_toJson (piece : Interpolation) :
    Interpolation.ofJson? piece.toJson = some piece := by
  simp [Interpolation.ofJson?, Interpolation.toJson, Json.parts?, Json.unique?, Json.required,
    Json.string?]

/-- A fragment is read back, whichever kind it is. -/
@[simp] theorem Fragment.ofJson?_toJson (fragment : Fragment) :
    Fragment.ofJson? fragment.toJson = some fragment := by
  cases fragment with
  | literal run =>
    rw [Fragment.ofJson?, Fragment.toJson, Json.variant?_tagged (by simp)]
    simp
  | interpolation piece =>
    rw [Fragment.ofJson?, Fragment.toJson, Json.variant?_tagged (by simp)]
    simp
  | quoted run =>
    rw [Fragment.ofJson?, Fragment.toJson, Json.variant?_tagged (by simp)]
    simp

/-- A macro argument is read back. -/
@[simp] theorem Interpolated.ofJson?_toJson (argument : Interpolated) :
    Interpolated.ofJson? argument.toJson = some argument := by
  have hfragments := mapM_some fun fragment (_ : fragment ∈ argument.fragments) =>
    Fragment.ofJson?_toJson fragment
  simp [Interpolated.ofJson?, Interpolated.toJson, Json.parts?, Json.unique?, Json.required,
    Json.array?, hfragments]

/-- An offset that is not finite is dropped, any other number that is not finite is not read
back. -/
@[simp] theorem CoordinatePart.ofJson?_toJson (part : CoordinatePart) :
    CoordinatePart.ofJson? part.toJson =
      given ((Node.part part).number?.all Binary64.isFinite) part.withFiniteOffsets := by
  cases part with
  | absolute value suffix span =>
    cases hfinite : value.isFinite with
    | false =>
      cases suffix <;> simp [CoordinatePart.ofJson?, CoordinatePart.toJson, Json.variant?,
        Json.unique?, Json.label?, Json.optional, CoordinatePart.ofRecord?, Json.parts?,
        Json.required, Node.number?, hfinite]
    | true =>
      cases suffix <;> simp [CoordinatePart.ofJson?, CoordinatePart.toJson, Json.variant?,
        Json.unique?, Json.label?, Json.optional, CoordinatePart.ofRecord?, Json.parts?,
        Json.required, Json.nullable, suffixToJson, Json.char?, Node.number?, hfinite,
        CoordinatePart.withFiniteOffsets]
  | relative offset span =>
    cases offset with
    | none =>
      simp [CoordinatePart.ofJson?, CoordinatePart.toJson, Json.variant?, Json.unique?,
        Json.label?, Json.optional, CoordinatePart.ofRecord?, Json.parts?, Json.required,
        Json.nullable, Node.number?, CoordinatePart.withFiniteOffsets]
    | some value =>
      simp [CoordinatePart.ofJson?, CoordinatePart.toJson, Json.variant?, Json.unique?,
        Json.label?, Json.optional, CoordinatePart.ofRecord?, Json.parts?, Json.required,
        Json.nullable_number, Node.number?, CoordinatePart.withFiniteOffsets]
  | localTo offset span =>
    cases offset with
    | none =>
      simp [CoordinatePart.ofJson?, CoordinatePart.toJson, Json.variant?, Json.unique?,
        Json.label?, Json.optional, CoordinatePart.ofRecord?, Json.parts?, Json.required,
        Json.nullable, Node.number?, CoordinatePart.withFiniteOffsets]
    | some value =>
      simp [CoordinatePart.ofJson?, CoordinatePart.toJson, Json.variant?, Json.unique?,
        Json.label?, Json.optional, CoordinatePart.ofRecord?, Json.parts?, Json.required,
        Json.nullable_number, Node.number?, CoordinatePart.withFiniteOffsets]

/-- Coordinates are read back if their numbers are finite, without the offsets that are not. -/
@[simp] theorem Coordinates.ofJson?_toJson (coordinates : Coordinates) :
    Coordinates.ofJson? coordinates.toJson =
      given (coordinates.parts.toList.all fun part =>
        (Node.part part).number?.all Binary64.isFinite) coordinates.withFiniteOffsets := by
  have hparts := mapM_given fun part (_ : part ∈ coordinates.parts.toList) =>
    CoordinatePart.ofJson?_toJson part
  cases hall : coordinates.parts.toList.all fun part =>
      (Node.part part).number?.all Binary64.isFinite with
  | false =>
    rw [hall] at hparts
    simp [Coordinates.ofJson?, Coordinates.toJson, Json.parts?, Json.unique?, Json.required,
      Json.array?, hparts]
  | true =>
    rw [hall] at hparts
    simp [Coordinates.ofJson?, Coordinates.toJson, Json.parts?, Json.unique?, Json.required,
      Json.array?, hparts]
    rfl

/-- The target of a selector is read back from its name. -/
@[simp] theorem SelectorTarget.ofJson?_name (target : SelectorTarget) :
    SelectorTarget.ofJson? (.string target.name) = some target := by
  cases target <;> rfl

/-- The sign between a key and its value is read back from its name. -/
@[simp] theorem PairOperator.ofJson?_name (operator : PairOperator) :
    PairOperator.ofJson? (.string operator.name) = some operator := by
  cases operator <;> rfl

/-- A key is read back, whichever kind it is. -/
@[simp] theorem NbtKey.ofJson?_toJson (key : NbtKey) : NbtKey.ofJson? key.toJson = some key := by
  cases key with
  | plain literal =>
    rw [NbtKey.ofJson?, NbtKey.toJson, Json.variant?_tagged (by simp)]
    simp
  | interpolated argument =>
    rw [NbtKey.ofJson?, NbtKey.toJson, Json.variant?_tagged (by simp)]
    simp

/-- A macro name is read back. -/
@[simp] theorem MacroName.ofJson?_toJson (name : MacroName) :
    MacroName.ofJson? name.toJson = some name := by
  cases name with
  | literal name =>
    rw [MacroName.ofJson?, MacroName.toJson, Json.variant?_tagged (by simp)]
    simp
  | interpolation piece =>
    rw [MacroName.ofJson?, MacroName.toJson, Json.variant?_tagged (by simp)]
    simp

/-- The kind of a comment is read back from its name. -/
@[simp] theorem CommentKind.ofJson?_name (kind : CommentKind) :
    CommentKind.ofJson? (.string kind.name) = some kind := by
  cases kind <;> rfl

/-- A comment is read back. -/
@[simp] theorem Comment.ofJson?_toJson (comment : Comment) :
    Comment.ofJson? comment.toJson = some comment := by
  obtain ⟨kind, tag, content, key, value, span⟩ := comment
  cases content <;> cases key <;> cases value <;> simp [Comment.ofJson?, Comment.toJson,
    Json.parts?, Json.unique?, Json.optional, Json.required, Json.nullable, Json.string?]

end Mcfunction
