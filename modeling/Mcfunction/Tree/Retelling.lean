import Mcfunction.Diagnostic.Basic
import Mcfunction.Tree.Basic

/-!
# Retelling Trees

One tree may be told in different ways: with other places, with other texts where the source was
written otherwise, with other messages. `retell` goes through a tree or a diagnostic and gives every
offset, every text and every message in it a new value; the kinds of the nodes, the numbers and the
letters stay.

## Main results

* `Retell.retell_retell`: what is retold twice is retold once.
-/

namespace Mcfunction

/-- A way to tell what a tree tells. -/
structure Retelling where
  /-- The new offset for an offset. -/
  place : Nat → Nat
  /-- The new text for a text of the source. -/
  text : String → String
  /-- The new message for a message. -/
  message : String → String

namespace Retelling

/-- One retelling after another. -/
def after (second first : Retelling) : Retelling :=
  ⟨second.place ∘ first.place, second.text ∘ first.text, second.message ∘ first.message⟩

/-- All places are forgotten. -/
def placeless : Retelling :=
  ⟨fun _ => 0, id, id⟩

end Retelling

/-- Values that tell places, texts or messages. -/
class Retell (α : Type) where
  /-- The value told in another way. -/
  retell : Retelling → α → α
  /-- What is retold twice is retold once. -/
  retell_retell : ∀ (second first : Retelling) (value : α),
    retell second (retell first value) = retell (second.after first) value

export Retell (retell retell_retell)

attribute [simp] Retell.retell_retell

/-- Values of a type that tells nothing of this kind. -/
@[reducible] def Retell.constant {α : Type} : Retell α :=
  ⟨fun _ value => value, fun _ _ _ => rfl⟩

instance : Retell Unit := .constant

instance : Retell Bool := .constant

instance : Retell PairOperator := .constant

instance {α : Type} [Retell α] : Retell (List α) where
  retell r values := values.map (retell r)
  retell_retell _ _ _ := List.map_map.trans (List.map_congr_left fun _ _ => retell_retell _ _ _)

instance {α : Type} [Retell α] : Retell (Option α) where
  retell r value := value.map (retell r)
  retell_retell _ _ value := by cases value <;> simp

section

variable {α : Type} [Retell α] (r : Retelling)

/-- No list is retold as no list. -/
@[simp] theorem retell_nil : retell r ([] : List α) = [] := rfl

/-- A list is retold item by item. -/
@[simp] theorem retell_cons (value : α) (values : List α) :
    retell r (value :: values) = retell r value :: retell r values := rfl

/-- Lists that are joined are retold one by one. -/
@[simp] theorem retell_append (values others : List α) :
    retell r (values ++ others) = retell r values ++ retell r others :=
  List.map_append

end

/-! ### Leaves -/

instance : Retell Span where
  retell r span := ⟨r.place span.start, r.place span.stop⟩
  retell_retell _ _ _ := rfl

instance : Retell ErrorNode where
  retell r node := ⟨r.message node.message, retell r node.span⟩
  retell_retell _ _ _ := rfl

instance : Retell StringLiteral where
  retell r literal := ⟨r.text literal.value, literal.quote, retell r literal.span⟩
  retell_retell _ _ _ := rfl

instance : Retell Number where
  retell r number := ⟨number.value, number.suffix, r.text number.raw, retell r number.span⟩
  retell_retell _ _ _ := rfl

instance : Retell ResourceLocation where
  retell r location := ⟨r.text location.space, r.text location.path, retell r location.span⟩
  retell_retell _ _ _ := rfl

instance : Retell Boolean where
  retell r boolean := ⟨boolean.value, retell r boolean.span⟩
  retell_retell _ _ _ := rfl

instance : Retell FakePlayer where
  retell r player := ⟨r.text player.name, retell r player.span⟩
  retell_retell _ _ _ := rfl

instance : Retell TextRun where
  retell r run := ⟨r.text run.text, retell r run.span⟩
  retell_retell _ _ _ := rfl

instance : Retell Interpolation where
  retell r piece := ⟨r.text piece.expression, retell r piece.span⟩
  retell_retell _ _ _ := rfl

instance : Retell Fragment where
  retell r fragment :=
    match fragment with
    | .literal run => .literal (retell r run)
    | .interpolation piece => .interpolation (retell r piece)
    | .quoted run => .quoted (retell r run)
  retell_retell _ _ fragment := by cases fragment <;> rfl

instance : Retell Interpolated where
  retell r argument := ⟨retell r argument.fragments, argument.quote, retell r argument.span⟩
  retell_retell _ _ _ := by simp

instance : Retell CoordinatePart where
  retell r part :=
    match part with
    | .absolute value suffix span => .absolute value suffix (retell r span)
    | .relative offset span => .relative offset (retell r span)
    | .localTo offset span => .localTo offset (retell r span)
  retell_retell _ _ part := by cases part <;> rfl

instance : Retell Coordinates where
  retell r coordinates := ⟨coordinates.parts.map (retell r), retell r coordinates.span⟩
  retell_retell _ _ _ := by simp [Triple.map]

/-! ### NBT -/

instance : Retell NbtKey where
  retell r key :=
    match key with
    | .plain literal => .plain (retell r literal)
    | .interpolated argument => .interpolated (retell r argument)
  retell_retell _ _ key := by cases key <;> simp

mutual

/-- A value told in another way. -/
def NbtValue.retold (r : Retelling) : NbtValue → NbtValue
  | .string node => .string (retell r node)
  | .number node => .number (retell r node)
  | .resource node => .resource (retell r node)
  | .list node => .list (node.retold r)
  | .compound node => .compound (node.retold r)
  | .boolean node => .boolean (retell r node)
  | .interpolated node => .interpolated (retell r node)
  | .error node => .error (retell r node)

/-- The elements of a list told in another way. -/
def NbtItems.retold (r : Retelling) : NbtItems → NbtItems
  | .pairs elements => .pairs (NbtPair.allRetold r elements)
  | .values elements => .values (NbtValue.allRetold r elements)

/-- A list told in another way. -/
def NbtList.retold (r : Retelling) : NbtList → NbtList
  | ⟨items, span⟩ => ⟨items.retold r, retell r span⟩

/-- A compound told in another way. -/
def NbtCompound.retold (r : Retelling) : NbtCompound → NbtCompound
  | ⟨pairs, span⟩ => ⟨NbtPair.allRetold r pairs, retell r span⟩

/-- A pair told in another way. -/
def NbtPair.retold (r : Retelling) : NbtPair → NbtPair
  | ⟨key, operator, value, span⟩ => ⟨retell r key, operator, value.retold r, retell r span⟩

/-- Several pairs told in another way. -/
def NbtPair.allRetold (r : Retelling) : List NbtPair → List NbtPair
  | [] => []
  | pair :: pairs => pair.retold r :: NbtPair.allRetold r pairs

/-- Several values told in another way. -/
def NbtValue.allRetold (r : Retelling) : List NbtValue → List NbtValue
  | [] => []
  | value :: values => value.retold r :: NbtValue.allRetold r values

end

section

variable (second first : Retelling)

mutual

/-- Retelling a value twice is retelling it by both in a row. -/
theorem NbtValue.retold_retold : (value : NbtValue) →
    (value.retold first).retold second = value.retold (second.after first)
  | .string _ | .number _ | .resource _ | .boolean _ | .interpolated _ | .error _ => by
    simp [NbtValue.retold]
  | .list node => by simp [NbtValue.retold, node.retold_retold]
  | .compound node => by simp [NbtValue.retold, node.retold_retold]

/-- Retelling the items of a list twice is retelling them by both in a row. -/
theorem NbtItems.retold_retold : (items : NbtItems) →
    (items.retold first).retold second = items.retold (second.after first)
  | .pairs elements => by simp [NbtItems.retold, NbtPair.allRetold_allRetold elements]
  | .values elements => by simp [NbtItems.retold, NbtValue.allRetold_allRetold elements]

/-- Retelling a list twice is retelling it by both in a row. -/
theorem NbtList.retold_retold : (list : NbtList) →
    (list.retold first).retold second = list.retold (second.after first)
  | ⟨items, _⟩ => by simp [NbtList.retold, items.retold_retold]

/-- Retelling a compound twice is retelling it by both in a row. -/
theorem NbtCompound.retold_retold : (compound : NbtCompound) →
    (compound.retold first).retold second = compound.retold (second.after first)
  | ⟨pairs, _⟩ => by simp [NbtCompound.retold, NbtPair.allRetold_allRetold pairs]

/-- Retelling a pair twice is retelling it by both in a row. -/
theorem NbtPair.retold_retold : (pair : NbtPair) →
    (pair.retold first).retold second = pair.retold (second.after first)
  | ⟨_, _, value, _⟩ => by simp [NbtPair.retold, value.retold_retold]

/-- Retelling pairs twice is retelling them by both in a row. -/
theorem NbtPair.allRetold_allRetold : (pairs : List NbtPair) →
    NbtPair.allRetold second (NbtPair.allRetold first pairs) =
      NbtPair.allRetold (second.after first) pairs
  | [] => rfl
  | pair :: pairs => by
    simp [NbtPair.allRetold, pair.retold_retold, NbtPair.allRetold_allRetold pairs]

/-- Retelling values twice is retelling them by both in a row. -/
theorem NbtValue.allRetold_allRetold : (values : List NbtValue) →
    NbtValue.allRetold second (NbtValue.allRetold first values) =
      NbtValue.allRetold (second.after first) values
  | [] => rfl
  | value :: values => by
    simp [NbtValue.allRetold, value.retold_retold, NbtValue.allRetold_allRetold values]

end

end

instance : Retell NbtValue := ⟨NbtValue.retold, NbtValue.retold_retold⟩

instance : Retell NbtItems := ⟨NbtItems.retold, NbtItems.retold_retold⟩

instance : Retell NbtList := ⟨NbtList.retold, NbtList.retold_retold⟩

instance : Retell NbtCompound := ⟨NbtCompound.retold, NbtCompound.retold_retold⟩

instance : Retell NbtPair := ⟨NbtPair.retold, NbtPair.retold_retold⟩

/-- Pairs are retold one by one. -/
theorem NbtPair.allRetold_eq (r : Retelling) (pairs : List NbtPair) :
    NbtPair.allRetold r pairs = retell r pairs := by
  induction pairs with
  | nil => rfl
  | cons pair pairs ih => rw [NbtPair.allRetold, ih]; rfl

/-- Values are retold one by one. -/
theorem NbtValue.allRetold_eq (r : Retelling) (values : List NbtValue) :
    NbtValue.allRetold r values = retell r values := by
  induction values with
  | nil => rfl
  | cons value values ih => rw [NbtValue.allRetold, ih]; rfl

instance : Retell PathSuffix where
  retell r suffix :=
    match suffix with
    | .index list => .index (retell r list)
    | .filter compound => .filter (retell r compound)
  retell_retell _ _ suffix := by cases suffix <;> simp

instance : Retell PathSegment where
  retell r segment := ⟨retell r segment.name, retell r segment.suffixes, retell r segment.span⟩
  retell_retell _ _ _ := by simp

instance : Retell NbtPath where
  retell r path := ⟨retell r path.segments, retell r path.span⟩
  retell_retell _ _ _ := by simp

instance : Retell Selector where
  retell r selector := ⟨selector.target, retell r selector.filter, retell r selector.span⟩
  retell_retell _ _ _ := by simp

/-! ### Commands -/

instance : Retell MacroName where
  retell r name :=
    match name with
    | .literal run => .literal (retell r run)
    | .interpolation piece => .interpolation (retell r piece)
  retell_retell _ _ name := by cases name <;> simp

mutual

/-- An argument told in another way. -/
def Argument.retold (r : Retelling) : Argument → Argument
  | .coordinates node => .coordinates (retell r node)
  | .string node => .string (retell r node)
  | .number node => .number (retell r node)
  | .resource node => .resource (retell r node)
  | .selector node => .selector (retell r node)
  | .list node => .list (retell r node)
  | .compound node => .compound (retell r node)
  | .boolean node => .boolean (retell r node)
  | .fakePlayer node => .fakePlayer (retell r node)
  | .path node => .path (retell r node)
  | .run node => .run (node.retold r)
  | .keyword node => .keyword (retell r node)
  | .interpolated node => .interpolated (retell r node)
  | .error node => .error (retell r node)

/-- A run clause told in another way. -/
def RunClause.retold (r : Retelling) : RunClause → RunClause
  | ⟨subcommand, span⟩ => ⟨subcommand.retold r, retell r span⟩

/-- A subcommand told in another way. -/
def Subcommand.retold (r : Retelling) : Subcommand → Subcommand
  | .command node => .command (node.retold r)
  | .macroCommand node => .macroCommand (node.retold r)

/-- A command told in another way. -/
def Command.retold (r : Retelling) : Command → Command
  | ⟨name, arguments, span⟩ => ⟨retell r name, Argument.allRetold r arguments, retell r span⟩

/-- A macro command told in another way. -/
def MacroCommand.retold (r : Retelling) : MacroCommand → MacroCommand
  | ⟨name, arguments, span⟩ => ⟨retell r name, Argument.allRetold r arguments, retell r span⟩

/-- Several arguments told in another way. -/
def Argument.allRetold (r : Retelling) : List Argument → List Argument
  | [] => []
  | argument :: arguments => argument.retold r :: Argument.allRetold r arguments

end

section

variable (second first : Retelling)

mutual

/-- Retelling an argument twice is retelling it by both in a row. -/
theorem Argument.retold_retold : (argument : Argument) →
    (argument.retold first).retold second = argument.retold (second.after first)
  | .run node => by simp [Argument.retold, node.retold_retold]
  | .coordinates _ | .string _ | .number _ | .resource _ | .selector _ | .list _ | .compound _
  | .boolean _ | .fakePlayer _ | .path _ | .keyword _ | .interpolated _ | .error _ => by
    simp [Argument.retold]

/-- Retelling a run clause twice is retelling it by both in a row. -/
theorem RunClause.retold_retold : (clause : RunClause) →
    (clause.retold first).retold second = clause.retold (second.after first)
  | ⟨subcommand, _⟩ => by simp [RunClause.retold, subcommand.retold_retold]

/-- Retelling a subcommand twice is retelling it by both in a row. -/
theorem Subcommand.retold_retold : (subcommand : Subcommand) →
    (subcommand.retold first).retold second = subcommand.retold (second.after first)
  | .command node => by simp [Subcommand.retold, node.retold_retold]
  | .macroCommand node => by simp [Subcommand.retold, node.retold_retold]

/-- Retelling a command twice is retelling it by both in a row. -/
theorem Command.retold_retold : (command : Command) →
    (command.retold first).retold second = command.retold (second.after first)
  | ⟨_, arguments, _⟩ => by simp [Command.retold, Argument.allRetold_allRetold arguments]

/-- Retelling a macro command twice is retelling it by both in a row. -/
theorem MacroCommand.retold_retold : (command : MacroCommand) →
    (command.retold first).retold second = command.retold (second.after first)
  | ⟨_, arguments, _⟩ => by simp [MacroCommand.retold, Argument.allRetold_allRetold arguments]

/-- Retelling arguments twice is retelling them by both in a row. -/
theorem Argument.allRetold_allRetold : (arguments : List Argument) →
    Argument.allRetold second (Argument.allRetold first arguments) =
      Argument.allRetold (second.after first) arguments
  | [] => rfl
  | argument :: arguments => by
    simp [Argument.allRetold, argument.retold_retold, Argument.allRetold_allRetold arguments]

end

end

instance : Retell Argument := ⟨Argument.retold, Argument.retold_retold⟩

instance : Retell RunClause := ⟨RunClause.retold, RunClause.retold_retold⟩

instance : Retell Subcommand := ⟨Subcommand.retold, Subcommand.retold_retold⟩

instance : Retell Command := ⟨Command.retold, Command.retold_retold⟩

instance : Retell MacroCommand := ⟨MacroCommand.retold, MacroCommand.retold_retold⟩

/-- Arguments are retold one by one. -/
theorem Argument.allRetold_eq (r : Retelling) (arguments : List Argument) :
    Argument.allRetold r arguments = retell r arguments := by
  induction arguments with
  | nil => rfl
  | cons argument arguments ih => rw [Argument.allRetold, ih]; rfl

/-! ### Statements and diagnostics -/

instance : Retell Comment where
  retell r comment :=
    ⟨comment.kind, r.text comment.tag, comment.content.map r.text,
      comment.directiveKey.map r.text, comment.directiveValue.map r.text, retell r comment.span⟩
  retell_retell _ _ _ := by simp [Retelling.after]

instance : Retell Statement where
  retell r statement :=
    match statement with
    | .command command => .command (retell r command)
    | .macroCommand command => .macroCommand (retell r command)
    | .comment comment => .comment (retell r comment)
    | .error node => .error (retell r node)
  retell_retell _ _ statement := by cases statement <;> simp

instance : Retell Document where
  retell r document := ⟨retell r document.statements⟩
  retell_retell _ _ _ := by simp

instance : Retell Diagnostic where
  retell r diagnostic :=
    { diagnostic with
      message := r.message diagnostic.message, span := diagnostic.span.map (retell r) }
  retell_retell _ _ _ := by simp [Retelling.after, Function.comp_def]

/-! ### Spans of retold nodes -/

section

variable (r : Retelling)

/-- The span of a retold key is the retold span. -/
@[simp] theorem NbtKey.span_retell (key : NbtKey) : (retell r key).span = retell r key.span := by
  cases key <;> rfl

/-- The span of a retold macro name is the retold span. -/
@[simp] theorem MacroName.span_retell (name : MacroName) :
    (retell r name).span = retell r name.span := by
  cases name <;> rfl

/-- The span of a retold command is the retold span. -/
@[simp] theorem Command.span_retell (command : Command) :
    (retell r command).span = retell r command.span := by
  cases command
  rfl

/-- The span of a retold macro command is the retold span. -/
@[simp] theorem MacroCommand.span_retell (command : MacroCommand) :
    (retell r command).span = retell r command.span := by
  cases command
  rfl

/-- The span of a retold subcommand is the retold span. -/
@[simp] theorem Subcommand.span_retell (subcommand : Subcommand) :
    (retell r subcommand).span = retell r subcommand.span := by
  cases subcommand with
  | command node => exact node.span_retell r
  | macroCommand node => exact node.span_retell r

/-- The span of a retold argument is the retold span. -/
@[simp] theorem Argument.span_retell (argument : Argument) :
    (retell r argument).span = retell r argument.span := by
  cases argument with
  | list node | compound node | run node =>
      cases node
      rfl
  | _ => rfl

/-- The span of a retold statement is the retold span. -/
@[simp] theorem Statement.span_retell (statement : Statement) :
    (retell r statement).span = retell r statement.span := by
  cases statement with
  | command node => exact node.span_retell r
  | macroCommand node => exact node.span_retell r
  | _ => rfl

end

end Mcfunction
