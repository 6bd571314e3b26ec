import Mcfunction.Parser.Document

/-!
# Shifting Trees

A text that stands further on in a longer text is read as the same tree, but for the places.
`shift` moves all places in a tree, in a diagnostic or in a log by so many bytes, and leaves
the rest as it is.
-/

namespace Mcfunction

/-- Values that tell places in a text. -/
class Shift (α : Type) where
  /-- The value with so many bytes more before its text. -/
  shift : Nat → α → α
  /-- With no bytes more nothing changes. -/
  shift_zero : ∀ value, shift 0 value = value

export Shift (shift shift_zero)

attribute [simp] Shift.shift_zero

/-- Values of a type that tells no places. -/
@[reducible] def Shift.constant {α : Type} : Shift α :=
  ⟨fun _ value => value, fun _ => rfl⟩

instance : Shift Unit := .constant

instance : Shift Bool := .constant

instance : Shift PairOperator := .constant

instance {α : Type} [Shift α] : Shift (List α) where
  shift bytes values := values.map (shift bytes)
  shift_zero values := by simp [List.map_congr_left fun value _ => shift_zero value]

instance {α : Type} [Shift α] : Shift (Option α) where
  shift bytes value := value.map (shift bytes)
  shift_zero value := by cases value <;> simp

section

variable {α : Type} [Shift α] (bytes : Nat)

/-- No list is shifted to no list. -/
@[simp] theorem shift_nil : shift bytes ([] : List α) = [] := rfl

/-- A list is shifted item by item. -/
@[simp] theorem shift_cons (value : α) (values : List α) :
    shift bytes (value :: values) = shift bytes value :: shift bytes values := rfl

/-- Lists that are joined are shifted one by one. -/
@[simp] theorem shift_append (values others : List α) :
    shift bytes (values ++ others) = shift bytes values ++ shift bytes others :=
  List.map_append

/-- What is absent stays absent. -/
@[simp] theorem shift_none : shift bytes (none : Option α) = none := rfl

/-- What is present is shifted. -/
@[simp] theorem shift_some (value : α) : shift bytes (some value) = some (shift bytes value) := rfl

end

/-! ### Leaves -/

instance : Shift Span where
  shift bytes span := ⟨span.start + bytes, span.stop + bytes⟩
  shift_zero _ := rfl

instance : Shift ErrorNode where
  shift bytes node := { node with span := shift bytes node.span }
  shift_zero _ := rfl

instance : Shift StringLiteral where
  shift bytes literal := { literal with span := shift bytes literal.span }
  shift_zero _ := rfl

instance : Shift Number where
  shift bytes number := { number with span := shift bytes number.span }
  shift_zero _ := rfl

instance : Shift ResourceLocation where
  shift bytes location := { location with span := shift bytes location.span }
  shift_zero _ := rfl

instance : Shift Boolean where
  shift bytes boolean := { boolean with span := shift bytes boolean.span }
  shift_zero _ := rfl

instance : Shift FakePlayer where
  shift bytes player := { player with span := shift bytes player.span }
  shift_zero _ := rfl

instance : Shift TextRun where
  shift bytes run := { run with span := shift bytes run.span }
  shift_zero _ := rfl

instance : Shift Interpolation where
  shift bytes piece := { piece with span := shift bytes piece.span }
  shift_zero _ := rfl

instance : Shift Fragment where
  shift bytes fragment :=
    match fragment with
    | .literal run => .literal (shift bytes run)
    | .interpolation piece => .interpolation (shift bytes piece)
    | .quoted run => .quoted (shift bytes run)
  shift_zero fragment := by cases fragment <;> rfl

instance : Shift Interpolated where
  shift bytes argument :=
    ⟨shift bytes argument.fragments, argument.quote, shift bytes argument.span⟩
  shift_zero argument := by simp

instance : Shift CoordinatePart where
  shift bytes part :=
    match part with
    | .absolute value suffix span => .absolute value suffix (shift bytes span)
    | .relative offset span => .relative offset (shift bytes span)
    | .localTo offset span => .localTo offset (shift bytes span)
  shift_zero part := by cases part <;> rfl

instance : Shift Coordinates where
  shift bytes coordinates :=
    ⟨coordinates.parts.map (shift bytes), shift bytes coordinates.span⟩
  shift_zero coordinates := by simp [Triple.map]

/-! ### NBT -/

instance : Shift NbtKey where
  shift bytes key :=
    match key with
    | .plain literal => .plain (shift bytes literal)
    | .interpolated argument => .interpolated (shift bytes argument)
  shift_zero key := by cases key <;> simp

mutual

/-- A value with so many bytes more before it. -/
def NbtValue.shifted (bytes : Nat) : NbtValue → NbtValue
  | .string node => .string (shift bytes node)
  | .number node => .number (shift bytes node)
  | .resource node => .resource (shift bytes node)
  | .list node => .list (node.shifted bytes)
  | .compound node => .compound (node.shifted bytes)
  | .boolean node => .boolean (shift bytes node)
  | .interpolated node => .interpolated (shift bytes node)
  | .error node => .error (shift bytes node)

/-- The elements of a list with so many bytes more before them. -/
def NbtItems.shifted (bytes : Nat) : NbtItems → NbtItems
  | .pairs elements => .pairs (NbtPair.allShifted bytes elements)
  | .values elements => .values (NbtValue.allShifted bytes elements)

/-- A list with so many bytes more before it. -/
def NbtList.shifted (bytes : Nat) : NbtList → NbtList
  | ⟨items, span⟩ => ⟨items.shifted bytes, shift bytes span⟩

/-- A compound with so many bytes more before it. -/
def NbtCompound.shifted (bytes : Nat) : NbtCompound → NbtCompound
  | ⟨pairs, span⟩ => ⟨NbtPair.allShifted bytes pairs, shift bytes span⟩

/-- A pair with so many bytes more before it. -/
def NbtPair.shifted (bytes : Nat) : NbtPair → NbtPair
  | ⟨key, operator, value, span⟩ =>
    ⟨shift bytes key, operator, value.shifted bytes, shift bytes span⟩

/-- Several pairs with so many bytes more before them. -/
def NbtPair.allShifted (bytes : Nat) : List NbtPair → List NbtPair
  | [] => []
  | pair :: pairs => pair.shifted bytes :: NbtPair.allShifted bytes pairs

/-- Several values with so many bytes more before them. -/
def NbtValue.allShifted (bytes : Nat) : List NbtValue → List NbtValue
  | [] => []
  | value :: values => value.shifted bytes :: NbtValue.allShifted bytes values

end

mutual

/-- A value that is shifted by nothing is as it was. -/
theorem NbtValue.shifted_zero : (value : NbtValue) → value.shifted 0 = value
  | .string _ | .number _ | .resource _ | .boolean _ | .interpolated _ | .error _ => by
    simp [NbtValue.shifted]
  | .list node => by rw [NbtValue.shifted, node.shifted_zero]
  | .compound node => by rw [NbtValue.shifted, node.shifted_zero]

/-- The items of a list that are shifted by nothing are as they were. -/
theorem NbtItems.shifted_zero : (items : NbtItems) → items.shifted 0 = items
  | .pairs elements => by rw [NbtItems.shifted, NbtPair.allShifted_zero elements]
  | .values elements => by rw [NbtItems.shifted, NbtValue.allShifted_zero elements]

/-- A list that is shifted by nothing is as it was. -/
theorem NbtList.shifted_zero : (list : NbtList) → list.shifted 0 = list
  | ⟨items, span⟩ => by rw [NbtList.shifted, items.shifted_zero, shift_zero]

/-- A compound that is shifted by nothing is as it was. -/
theorem NbtCompound.shifted_zero : (compound : NbtCompound) → compound.shifted 0 = compound
  | ⟨pairs, span⟩ => by rw [NbtCompound.shifted, NbtPair.allShifted_zero pairs, shift_zero]

/-- A pair that is shifted by nothing is as it was. -/
theorem NbtPair.shifted_zero : (pair : NbtPair) → pair.shifted 0 = pair
  | ⟨key, operator, value, span⟩ => by
    rw [NbtPair.shifted, value.shifted_zero, shift_zero, shift_zero]

/-- Pairs that are shifted by nothing are as they were. -/
theorem NbtPair.allShifted_zero : (pairs : List NbtPair) → NbtPair.allShifted 0 pairs = pairs
  | [] => rfl
  | pair :: pairs => by
    rw [NbtPair.allShifted, pair.shifted_zero, NbtPair.allShifted_zero pairs]

/-- Values that are shifted by nothing are as they were. -/
theorem NbtValue.allShifted_zero :
    (values : List NbtValue) → NbtValue.allShifted 0 values = values
  | [] => rfl
  | value :: values => by
    rw [NbtValue.allShifted, value.shifted_zero, NbtValue.allShifted_zero values]

end

instance : Shift NbtValue := ⟨NbtValue.shifted, NbtValue.shifted_zero⟩

instance : Shift NbtItems := ⟨NbtItems.shifted, NbtItems.shifted_zero⟩

instance : Shift NbtList := ⟨NbtList.shifted, NbtList.shifted_zero⟩

instance : Shift NbtCompound := ⟨NbtCompound.shifted, NbtCompound.shifted_zero⟩

instance : Shift NbtPair := ⟨NbtPair.shifted, NbtPair.shifted_zero⟩

/-- Pairs are shifted one by one. -/
theorem NbtPair.allShifted_eq (bytes : Nat) (pairs : List NbtPair) :
    NbtPair.allShifted bytes pairs = shift bytes pairs := by
  induction pairs with
  | nil => rfl
  | cons pair pairs ih => rw [NbtPair.allShifted, ih]; rfl

/-- Values are shifted one by one. -/
theorem NbtValue.allShifted_eq (bytes : Nat) (values : List NbtValue) :
    NbtValue.allShifted bytes values = shift bytes values := by
  induction values with
  | nil => rfl
  | cons value values ih => rw [NbtValue.allShifted, ih]; rfl

instance : Shift PathSuffix where
  shift bytes suffix :=
    match suffix with
    | .index list => .index (shift bytes list)
    | .filter compound => .filter (shift bytes compound)
  shift_zero suffix := by cases suffix <;> simp

instance : Shift PathSegment where
  shift bytes segment :=
    ⟨shift bytes segment.name, shift bytes segment.suffixes, shift bytes segment.span⟩
  shift_zero segment := by simp

instance : Shift NbtPath where
  shift bytes path := ⟨shift bytes path.segments, shift bytes path.span⟩
  shift_zero path := by simp

instance : Shift Selector where
  shift bytes selector :=
    ⟨selector.target, shift bytes selector.filter, shift bytes selector.span⟩
  shift_zero selector := by simp

/-! ### Commands -/

instance : Shift MacroName where
  shift bytes name :=
    match name with
    | .literal run => .literal (shift bytes run)
    | .interpolation piece => .interpolation (shift bytes piece)
  shift_zero name := by cases name <;> simp

mutual

/-- An argument with so many bytes more before it. -/
def Argument.shifted (bytes : Nat) : Argument → Argument
  | .coordinates node => .coordinates (shift bytes node)
  | .string node => .string (shift bytes node)
  | .number node => .number (shift bytes node)
  | .resource node => .resource (shift bytes node)
  | .selector node => .selector (shift bytes node)
  | .list node => .list (shift bytes node)
  | .compound node => .compound (shift bytes node)
  | .boolean node => .boolean (shift bytes node)
  | .fakePlayer node => .fakePlayer (shift bytes node)
  | .path node => .path (shift bytes node)
  | .run node => .run (node.shifted bytes)
  | .keyword node => .keyword (shift bytes node)
  | .interpolated node => .interpolated (shift bytes node)
  | .error node => .error (shift bytes node)

/-- A run clause with so many bytes more before it. -/
def RunClause.shifted (bytes : Nat) : RunClause → RunClause
  | ⟨subcommand, span⟩ => ⟨subcommand.shifted bytes, shift bytes span⟩

/-- A subcommand with so many bytes more before it. -/
def Subcommand.shifted (bytes : Nat) : Subcommand → Subcommand
  | .command node => .command (node.shifted bytes)
  | .macroCommand node => .macroCommand (node.shifted bytes)

/-- A command with so many bytes more before it. -/
def Command.shifted (bytes : Nat) : Command → Command
  | ⟨name, arguments, span⟩ =>
    ⟨shift bytes name, Argument.allShifted bytes arguments, shift bytes span⟩

/-- A macro command with so many bytes more before it. -/
def MacroCommand.shifted (bytes : Nat) : MacroCommand → MacroCommand
  | ⟨name, arguments, span⟩ =>
    ⟨shift bytes name, Argument.allShifted bytes arguments, shift bytes span⟩

/-- Several arguments with so many bytes more before them. -/
def Argument.allShifted (bytes : Nat) : List Argument → List Argument
  | [] => []
  | argument :: arguments => argument.shifted bytes :: Argument.allShifted bytes arguments

end

mutual

/-- An argument that is shifted by nothing is as it was. -/
theorem Argument.shifted_zero : (argument : Argument) → argument.shifted 0 = argument
  | .run node => by rw [Argument.shifted, node.shifted_zero]
  | .coordinates _ | .string _ | .number _ | .resource _ | .selector _ | .list _ | .compound _
  | .boolean _ | .fakePlayer _ | .path _ | .keyword _ | .interpolated _ | .error _ => by
    simp [Argument.shifted]

/-- A run clause that is shifted by nothing is as it was. -/
theorem RunClause.shifted_zero : (clause : RunClause) → clause.shifted 0 = clause
  | ⟨subcommand, span⟩ => by rw [RunClause.shifted, subcommand.shifted_zero, shift_zero]

/-- A subcommand that is shifted by nothing is as it was. -/
theorem Subcommand.shifted_zero : (subcommand : Subcommand) → subcommand.shifted 0 = subcommand
  | .command node => by rw [Subcommand.shifted, node.shifted_zero]
  | .macroCommand node => by rw [Subcommand.shifted, node.shifted_zero]

/-- A command that is shifted by nothing is as it was. -/
theorem Command.shifted_zero : (command : Command) → command.shifted 0 = command
  | ⟨name, arguments, span⟩ => by
    rw [Command.shifted, Argument.allShifted_zero arguments, shift_zero, shift_zero]

/-- A macro command that is shifted by nothing is as it was. -/
theorem MacroCommand.shifted_zero : (command : MacroCommand) → command.shifted 0 = command
  | ⟨name, arguments, span⟩ => by
    rw [MacroCommand.shifted, Argument.allShifted_zero arguments, shift_zero, shift_zero]

/-- Arguments that are shifted by nothing are as they were. -/
theorem Argument.allShifted_zero :
    (arguments : List Argument) → Argument.allShifted 0 arguments = arguments
  | [] => rfl
  | argument :: arguments => by
    rw [Argument.allShifted, argument.shifted_zero, Argument.allShifted_zero arguments]

end

instance : Shift Argument := ⟨Argument.shifted, Argument.shifted_zero⟩

instance : Shift RunClause := ⟨RunClause.shifted, RunClause.shifted_zero⟩

instance : Shift Subcommand := ⟨Subcommand.shifted, Subcommand.shifted_zero⟩

instance : Shift Command := ⟨Command.shifted, Command.shifted_zero⟩

instance : Shift MacroCommand := ⟨MacroCommand.shifted, MacroCommand.shifted_zero⟩

/-- Arguments are shifted one by one. -/
theorem Argument.allShifted_eq (bytes : Nat) (arguments : List Argument) :
    Argument.allShifted bytes arguments = shift bytes arguments := by
  induction arguments with
  | nil => rfl
  | cons argument arguments ih => rw [Argument.allShifted, ih]; rfl

/-! ### Statements -/

instance : Shift Comment where
  shift bytes comment := { comment with span := shift bytes comment.span }
  shift_zero _ := rfl

instance : Shift Statement where
  shift bytes statement :=
    match statement with
    | .command command => .command (shift bytes command)
    | .macroCommand command => .macroCommand (shift bytes command)
    | .comment comment => .comment (shift bytes comment)
    | .error node => .error (shift bytes node)
  shift_zero statement := by cases statement <;> simp

/-! ### Spans of shifted nodes -/

section

variable (bytes : Nat)

/-- The span of a key is shifted with it. -/
@[simp] theorem NbtKey.span_shift (key : NbtKey) :
    (shift bytes key).span = shift bytes key.span := by
  cases key <;> rfl

/-- The span of a macro name is shifted with it. -/
@[simp] theorem MacroName.span_shift (name : MacroName) :
    (shift bytes name).span = shift bytes name.span := by
  cases name <;> rfl

/-- The span of a command is shifted with it. -/
@[simp] theorem Command.span_shift (command : Command) :
    (shift bytes command).span = shift bytes command.span := by
  cases command
  rfl

/-- The span of a macro command is shifted with it. -/
@[simp] theorem MacroCommand.span_shift (command : MacroCommand) :
    (shift bytes command).span = shift bytes command.span := by
  cases command
  rfl

/-- The span of a subcommand is shifted with it. -/
@[simp] theorem Subcommand.span_shift (subcommand : Subcommand) :
    (shift bytes subcommand).span = shift bytes subcommand.span := by
  cases subcommand with
  | command node => exact node.span_shift bytes
  | macroCommand node => exact node.span_shift bytes

/-- The span of an argument is shifted with it. -/
@[simp] theorem Argument.span_shift (argument : Argument) :
    (shift bytes argument).span = shift bytes argument.span := by
  cases argument with
  | list node | compound node | run node =>
      cases node
      rfl
  | _ => rfl

/-- The span of a statement is shifted with it. -/
@[simp] theorem Statement.span_shift (statement : Statement) :
    (shift bytes statement).span = shift bytes statement.span := by
  cases statement with
  | command node => exact node.span_shift bytes
  | macroCommand node => exact node.span_shift bytes
  | _ => rfl

end

/-! ### Errors and events -/

instance : Shift ParseError where
  shift bytes error := ⟨error.cause, shift bytes error.span⟩
  shift_zero _ := rfl

instance : Shift Diagnostic where
  shift bytes diagnostic := { diagnostic with span := shift bytes diagnostic.span }
  shift_zero diagnostic := by simp

instance : Shift Event where
  shift bytes event :=
    match event with
    | .recovered error skipped => .recovered (shift bytes error) (shift bytes skipped)
    | .skippedStatement error skipped => .skippedStatement (shift bytes error) (shift bytes skipped)
    | .neverInterpolated place => .neverInterpolated (shift bytes place)
    | .statement span kind => .statement (shift bytes span) kind
    | .started count mode => .started count mode
    | .finished statements diagnostics => .finished statements diagnostics
  shift_zero event := by cases event <;> simp

/-- The diagnostics of a log move with it. -/
theorem diagnosticsOf_shift (bytes : Nat) (log : List Event) :
    diagnosticsOf (shift bytes log) = shift bytes (diagnosticsOf log) := by
  induction log with
  | nil => rfl
  | cons event log ih =>
      simp only [diagnosticsOf, shift_cons, List.filterMap_cons] at ih ⊢
      cases event with
      | started | statement | finished => exact ih
      | recovered | skippedStatement | neverInterpolated => exact congrArg _ ih

end Mcfunction
