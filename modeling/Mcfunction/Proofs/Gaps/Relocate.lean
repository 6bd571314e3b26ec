import Mcfunction.Proofs.Lines.Shift
import Mcfunction.Proofs.Spans.Outline

/-!
# Relocating Trees

When some text in the middle of a source is replaced, the places before it stay where they are and
those after it move. `relocate f` gives every offset `n` in a tree the new value `f n`, and leaves
the rest of the tree as it is.

A tree that stands wholly after the replaced text is shifted, a tree wholly before it is unchanged;
only the commands and run clauses around it have offsets of both kinds.

## Main results

* `Relocate.relocate_shift`: a tree after the replaced text, seen from where it starts, is shifted
  by another number of bytes.
* `Argument.allRelocated_eq_self`: trees whose offsets keep their values stay as they are.
-/

namespace Mcfunction

/-- Trees whose offsets can be given new values. -/
class Relocate (α : Type) [Shift α] where
  /-- The tree with the offset `f n` for each offset `n`. -/
  relocate : (Nat → Nat) → α → α
  /-- Where all offsets from `bytes` on move alike, what is shifted as far is shifted on. -/
  relocate_shift : ∀ {f : Nat → Nat} {bytes bytes' : Nat}, (∀ n, f (n + bytes) = n + bytes') →
    ∀ value, relocate f (shift bytes value) = shift bytes' value

export Relocate (relocate relocate_shift)

instance {α : Type} [Shift α] [Relocate α] : Relocate (List α) where
  relocate f values := values.map (relocate f)
  relocate_shift h _ :=
    List.map_map.trans (List.map_congr_left fun value _ => relocate_shift h value)

instance {α : Type} [Shift α] [Relocate α] : Relocate (Option α) where
  relocate f value := value.map (relocate f)
  relocate_shift h value := by
    cases value with
    | none => rfl
    | some value => exact congrArg some (relocate_shift h value)

/-- A list is relocated item by item. -/
theorem relocate_cons {α : Type} [Shift α] [Relocate α] (f : Nat → Nat) (value : α)
    (values : List α) : relocate f (value :: values) = relocate f value :: relocate f values :=
  rfl

/-! ### Leaves -/

instance : Relocate Span where
  relocate f span := ⟨f span.start, f span.stop⟩
  relocate_shift h span := congrArg₂ Span.mk (h span.start) (h span.stop)

instance : Relocate ErrorNode where
  relocate f node := { node with span := relocate f node.span }
  relocate_shift h node := congrArg (ErrorNode.mk node.message) (relocate_shift h node.span)

instance : Relocate StringLiteral where
  relocate f literal := { literal with span := relocate f literal.span }
  relocate_shift h literal :=
    congrArg (StringLiteral.mk literal.value literal.quote) (relocate_shift h literal.span)

instance : Relocate Number where
  relocate f number := { number with span := relocate f number.span }
  relocate_shift h number :=
    congrArg (Number.mk number.value number.suffix number.raw) (relocate_shift h number.span)

instance : Relocate ResourceLocation where
  relocate f location := { location with span := relocate f location.span }
  relocate_shift h location :=
    congrArg (ResourceLocation.mk location.space location.path) (relocate_shift h location.span)

instance : Relocate Boolean where
  relocate f boolean := { boolean with span := relocate f boolean.span }
  relocate_shift h boolean := congrArg (Boolean.mk boolean.value) (relocate_shift h boolean.span)

instance : Relocate FakePlayer where
  relocate f player := { player with span := relocate f player.span }
  relocate_shift h player := congrArg (FakePlayer.mk player.name) (relocate_shift h player.span)

instance : Relocate TextRun where
  relocate f run := { run with span := relocate f run.span }
  relocate_shift h run := congrArg (TextRun.mk run.text) (relocate_shift h run.span)

instance : Relocate Interpolation where
  relocate f piece := { piece with span := relocate f piece.span }
  relocate_shift h piece :=
    congrArg (Interpolation.mk piece.expression) (relocate_shift h piece.span)

instance : Relocate Fragment where
  relocate f fragment :=
    match fragment with
    | .literal run => .literal (relocate f run)
    | .interpolation piece => .interpolation (relocate f piece)
    | .quoted run => .quoted (relocate f run)
  relocate_shift h fragment := by
    cases fragment with
    | literal run => exact congrArg Fragment.literal (relocate_shift h run)
    | interpolation piece => exact congrArg Fragment.interpolation (relocate_shift h piece)
    | quoted run => exact congrArg Fragment.quoted (relocate_shift h run)

instance : Relocate Interpolated where
  relocate f argument :=
    ⟨relocate f argument.fragments, argument.quote, relocate f argument.span⟩
  relocate_shift h argument := by
    change Interpolated.mk (relocate _ (shift _ _)) _ (relocate _ (shift _ _)) = _
    rw [relocate_shift h, relocate_shift h]
    rfl

instance : Relocate CoordinatePart where
  relocate f part :=
    match part with
    | .absolute value suffix span => .absolute value suffix (relocate f span)
    | .relative offset span => .relative offset (relocate f span)
    | .localTo offset span => .localTo offset (relocate f span)
  relocate_shift h part := by
    cases part with
    | absolute value suffix span =>
        exact congrArg (CoordinatePart.absolute value suffix) (relocate_shift h span)
    | relative offset span =>
        exact congrArg (CoordinatePart.relative offset) (relocate_shift h span)
    | localTo offset span => exact congrArg (CoordinatePart.localTo offset) (relocate_shift h span)

instance : Relocate Coordinates where
  relocate f coordinates :=
    ⟨coordinates.parts.map (relocate f), relocate f coordinates.span⟩
  relocate_shift h coordinates := by
    obtain ⟨⟨x, y, z⟩, span⟩ := coordinates
    change Coordinates.mk ⟨relocate _ (shift _ x), relocate _ (shift _ y),
      relocate _ (shift _ z)⟩ (relocate _ (shift _ span)) = _
    rw [relocate_shift h, relocate_shift h, relocate_shift h, relocate_shift h]
    rfl

/-! ### NBT -/

instance : Relocate NbtKey where
  relocate f key :=
    match key with
    | .plain literal => .plain (relocate f literal)
    | .interpolated argument => .interpolated (relocate f argument)
  relocate_shift h key := by
    cases key with
    | plain literal => exact congrArg NbtKey.plain (relocate_shift h literal)
    | interpolated argument => exact congrArg NbtKey.interpolated (relocate_shift h argument)

mutual

/-- A value with new offsets. -/
def NbtValue.relocated (f : Nat → Nat) : NbtValue → NbtValue
  | .string node => .string (relocate f node)
  | .number node => .number (relocate f node)
  | .resource node => .resource (relocate f node)
  | .list node => .list (node.relocated f)
  | .compound node => .compound (node.relocated f)
  | .boolean node => .boolean (relocate f node)
  | .interpolated node => .interpolated (relocate f node)
  | .error node => .error (relocate f node)

/-- The elements of a list with new offsets. -/
def NbtItems.relocated (f : Nat → Nat) : NbtItems → NbtItems
  | .pairs elements => .pairs (NbtPair.allRelocated f elements)
  | .values elements => .values (NbtValue.allRelocated f elements)

/-- A list with new offsets. -/
def NbtList.relocated (f : Nat → Nat) : NbtList → NbtList
  | ⟨items, span⟩ => ⟨items.relocated f, relocate f span⟩

/-- A compound with new offsets. -/
def NbtCompound.relocated (f : Nat → Nat) : NbtCompound → NbtCompound
  | ⟨pairs, span⟩ => ⟨NbtPair.allRelocated f pairs, relocate f span⟩

/-- A pair with new offsets. -/
def NbtPair.relocated (f : Nat → Nat) : NbtPair → NbtPair
  | ⟨key, operator, value, span⟩ =>
    ⟨relocate f key, operator, value.relocated f, relocate f span⟩

/-- Several pairs with new offsets. -/
def NbtPair.allRelocated (f : Nat → Nat) : List NbtPair → List NbtPair
  | [] => []
  | pair :: pairs => pair.relocated f :: NbtPair.allRelocated f pairs

/-- Several values with new offsets. -/
def NbtValue.allRelocated (f : Nat → Nat) : List NbtValue → List NbtValue
  | [] => []
  | value :: values => value.relocated f :: NbtValue.allRelocated f values

end

section

variable {f : Nat → Nat} {bytes bytes' : Nat}

mutual

/-- Behind the replaced text a value is shifted by another number of bytes. -/
theorem NbtValue.relocated_shifted (h : ∀ n, f (n + bytes) = n + bytes') :
    (value : NbtValue) → (value.shifted bytes).relocated f = value.shifted bytes'
  | .list node => congrArg NbtValue.list (node.relocated_shifted h)
  | .compound node => congrArg NbtValue.compound (node.relocated_shifted h)
  | .string node => congrArg NbtValue.string (relocate_shift h node)
  | .number node => congrArg NbtValue.number (relocate_shift h node)
  | .resource node => congrArg NbtValue.resource (relocate_shift h node)
  | .boolean node => congrArg NbtValue.boolean (relocate_shift h node)
  | .interpolated node => congrArg NbtValue.interpolated (relocate_shift h node)
  | .error node => congrArg NbtValue.error (relocate_shift h node)

/-- Behind the replaced text the items of a list are shifted by another number of bytes. -/
theorem NbtItems.relocated_shifted (h : ∀ n, f (n + bytes) = n + bytes') :
    (items : NbtItems) → (items.shifted bytes).relocated f = items.shifted bytes'
  | .pairs elements => congrArg NbtItems.pairs (NbtPair.allRelocated_shifted h elements)
  | .values elements => congrArg NbtItems.values (NbtValue.allRelocated_shifted h elements)

/-- Behind the replaced text a list is shifted by another number of bytes. -/
theorem NbtList.relocated_shifted (h : ∀ n, f (n + bytes) = n + bytes') :
    (list : NbtList) → (list.shifted bytes).relocated f = list.shifted bytes'
  | ⟨items, span⟩ => congrArg₂ NbtList.mk (items.relocated_shifted h) (relocate_shift h span)

/-- Behind the replaced text a compound is shifted by another number of bytes. -/
theorem NbtCompound.relocated_shifted (h : ∀ n, f (n + bytes) = n + bytes') :
    (compound : NbtCompound) → (compound.shifted bytes).relocated f = compound.shifted bytes'
  | ⟨pairs, span⟩ =>
    congrArg₂ NbtCompound.mk (NbtPair.allRelocated_shifted h pairs) (relocate_shift h span)

/-- Behind the replaced text a pair is shifted by another number of bytes. -/
theorem NbtPair.relocated_shifted (h : ∀ n, f (n + bytes) = n + bytes') :
    (pair : NbtPair) → (pair.shifted bytes).relocated f = pair.shifted bytes'
  | ⟨key, operator, value, span⟩ => by
    rw [NbtPair.shifted, NbtPair.relocated, value.relocated_shifted h, relocate_shift h,
      relocate_shift h, NbtPair.shifted]

/-- Behind the replaced text pairs are shifted by another number of bytes. -/
theorem NbtPair.allRelocated_shifted (h : ∀ n, f (n + bytes) = n + bytes') :
    (pairs : List NbtPair) →
    NbtPair.allRelocated f (NbtPair.allShifted bytes pairs) = NbtPair.allShifted bytes' pairs
  | [] => rfl
  | pair :: pairs =>
    congrArg₂ List.cons (pair.relocated_shifted h) (NbtPair.allRelocated_shifted h pairs)

/-- Behind the replaced text values are shifted by another number of bytes. -/
theorem NbtValue.allRelocated_shifted (h : ∀ n, f (n + bytes) = n + bytes') :
    (values : List NbtValue) →
    NbtValue.allRelocated f (NbtValue.allShifted bytes values) = NbtValue.allShifted bytes' values
  | [] => rfl
  | value :: values =>
    congrArg₂ List.cons (value.relocated_shifted h) (NbtValue.allRelocated_shifted h values)

end

end

instance : Relocate NbtList := ⟨NbtList.relocated, fun h => NbtList.relocated_shifted h⟩

instance : Relocate NbtCompound := ⟨NbtCompound.relocated, fun h => NbtCompound.relocated_shifted h⟩

instance : Relocate PathSuffix where
  relocate f suffix :=
    match suffix with
    | .index list => .index (relocate f list)
    | .filter compound => .filter (relocate f compound)
  relocate_shift h suffix := by
    cases suffix with
    | index list => exact congrArg PathSuffix.index (relocate_shift h list)
    | filter compound => exact congrArg PathSuffix.filter (relocate_shift h compound)

instance : Relocate PathSegment where
  relocate f segment :=
    ⟨relocate f segment.name, relocate f segment.suffixes, relocate f segment.span⟩
  relocate_shift h segment := by
    change PathSegment.mk (relocate _ (shift _ _)) (relocate _ (shift _ _))
      (relocate _ (shift _ _)) = _
    rw [relocate_shift h, relocate_shift h, relocate_shift h]
    rfl

instance : Relocate NbtPath where
  relocate f path := ⟨relocate f path.segments, relocate f path.span⟩
  relocate_shift h path :=
    congrArg₂ NbtPath.mk (relocate_shift h path.segments) (relocate_shift h path.span)

instance : Relocate Selector where
  relocate f selector :=
    ⟨selector.target, relocate f selector.filter, relocate f selector.span⟩
  relocate_shift h selector :=
    congrArg₂ (Selector.mk selector.target) (relocate_shift h selector.filter)
      (relocate_shift h selector.span)

/-! ### Commands -/

instance : Relocate MacroName where
  relocate f name :=
    match name with
    | .literal run => .literal (relocate f run)
    | .interpolation piece => .interpolation (relocate f piece)
  relocate_shift h name := by
    cases name with
    | literal run => exact congrArg MacroName.literal (relocate_shift h run)
    | interpolation piece => exact congrArg MacroName.interpolation (relocate_shift h piece)

mutual

/-- An argument with new offsets. -/
def Argument.relocated (f : Nat → Nat) : Argument → Argument
  | .coordinates node => .coordinates (relocate f node)
  | .string node => .string (relocate f node)
  | .number node => .number (relocate f node)
  | .resource node => .resource (relocate f node)
  | .selector node => .selector (relocate f node)
  | .list node => .list (relocate f node)
  | .compound node => .compound (relocate f node)
  | .boolean node => .boolean (relocate f node)
  | .fakePlayer node => .fakePlayer (relocate f node)
  | .path node => .path (relocate f node)
  | .run node => .run (node.relocated f)
  | .keyword node => .keyword (relocate f node)
  | .interpolated node => .interpolated (relocate f node)
  | .error node => .error (relocate f node)

/-- A run clause with new offsets. -/
def RunClause.relocated (f : Nat → Nat) : RunClause → RunClause
  | ⟨subcommand, span⟩ => ⟨subcommand.relocated f, relocate f span⟩

/-- A subcommand with new offsets. -/
def Subcommand.relocated (f : Nat → Nat) : Subcommand → Subcommand
  | .command node => .command (node.relocated f)
  | .macroCommand node => .macroCommand (node.relocated f)

/-- A command with new offsets. -/
def Command.relocated (f : Nat → Nat) : Command → Command
  | ⟨name, arguments, span⟩ =>
    ⟨relocate f name, Argument.allRelocated f arguments, relocate f span⟩

/-- A macro command with new offsets. -/
def MacroCommand.relocated (f : Nat → Nat) : MacroCommand → MacroCommand
  | ⟨name, arguments, span⟩ =>
    ⟨relocate f name, Argument.allRelocated f arguments, relocate f span⟩

/-- Several arguments with new offsets. -/
def Argument.allRelocated (f : Nat → Nat) : List Argument → List Argument
  | [] => []
  | argument :: arguments => argument.relocated f :: Argument.allRelocated f arguments

end

section

variable {f : Nat → Nat} {bytes bytes' : Nat}

mutual

/-- Behind the replaced text an argument is shifted by another number of bytes. -/
theorem Argument.relocated_shifted (h : ∀ n, f (n + bytes) = n + bytes') :
    (argument : Argument) → (argument.shifted bytes).relocated f = argument.shifted bytes'
  | .run node => congrArg Argument.run (node.relocated_shifted h)
  | .coordinates node => congrArg Argument.coordinates (relocate_shift h node)
  | .string node => congrArg Argument.string (relocate_shift h node)
  | .number node => congrArg Argument.number (relocate_shift h node)
  | .resource node => congrArg Argument.resource (relocate_shift h node)
  | .selector node => congrArg Argument.selector (relocate_shift h node)
  | .list node => congrArg Argument.list (relocate_shift h node)
  | .compound node => congrArg Argument.compound (relocate_shift h node)
  | .boolean node => congrArg Argument.boolean (relocate_shift h node)
  | .fakePlayer node => congrArg Argument.fakePlayer (relocate_shift h node)
  | .path node => congrArg Argument.path (relocate_shift h node)
  | .keyword node => congrArg Argument.keyword (relocate_shift h node)
  | .interpolated node => congrArg Argument.interpolated (relocate_shift h node)
  | .error node => congrArg Argument.error (relocate_shift h node)

/-- Behind the replaced text a run clause is shifted by another number of bytes. -/
theorem RunClause.relocated_shifted (h : ∀ n, f (n + bytes) = n + bytes') :
    (clause : RunClause) → (clause.shifted bytes).relocated f = clause.shifted bytes'
  | ⟨subcommand, span⟩ =>
    congrArg₂ RunClause.mk (subcommand.relocated_shifted h) (relocate_shift h span)

/-- Behind the replaced text a subcommand is shifted by another number of bytes. -/
theorem Subcommand.relocated_shifted (h : ∀ n, f (n + bytes) = n + bytes') :
    (subcommand : Subcommand) → (subcommand.shifted bytes).relocated f = subcommand.shifted bytes'
  | .command node => congrArg Subcommand.command (node.relocated_shifted h)
  | .macroCommand node => congrArg Subcommand.macroCommand (node.relocated_shifted h)

/-- Behind the replaced text a command is shifted by another number of bytes. -/
theorem Command.relocated_shifted (h : ∀ n, f (n + bytes) = n + bytes') :
    (command : Command) → (command.shifted bytes).relocated f = command.shifted bytes'
  | ⟨name, arguments, span⟩ => by
    rw [Command.shifted, Command.relocated, Argument.allRelocated_shifted h arguments,
      relocate_shift h, relocate_shift h, Command.shifted]

/-- Behind the replaced text a macro command is shifted by another number of bytes. -/
theorem MacroCommand.relocated_shifted (h : ∀ n, f (n + bytes) = n + bytes') :
    (command : MacroCommand) → (command.shifted bytes).relocated f = command.shifted bytes'
  | ⟨name, arguments, span⟩ => by
    rw [MacroCommand.shifted, MacroCommand.relocated, Argument.allRelocated_shifted h arguments,
      relocate_shift h, relocate_shift h, MacroCommand.shifted]

/-- Behind the replaced text arguments are shifted by another number of bytes. -/
theorem Argument.allRelocated_shifted (h : ∀ n, f (n + bytes) = n + bytes') :
    (arguments : List Argument) →
    Argument.allRelocated f (Argument.allShifted bytes arguments) =
      Argument.allShifted bytes' arguments
  | [] => rfl
  | argument :: arguments =>
    congrArg₂ List.cons (argument.relocated_shifted h) (Argument.allRelocated_shifted h arguments)

end

end

instance : Relocate Argument := ⟨Argument.relocated, fun h => Argument.relocated_shifted h⟩

instance : Relocate RunClause := ⟨RunClause.relocated, fun h => RunClause.relocated_shifted h⟩

instance : Relocate Subcommand := ⟨Subcommand.relocated, fun h => Subcommand.relocated_shifted h⟩

instance : Relocate Command := ⟨Command.relocated, fun h => Command.relocated_shifted h⟩

instance : Relocate MacroCommand :=
  ⟨MacroCommand.relocated, fun h => MacroCommand.relocated_shifted h⟩

/-- Arguments are relocated one by one. -/
theorem Argument.allRelocated_eq (f : Nat → Nat) (arguments : List Argument) :
    Argument.allRelocated f arguments = relocate f arguments := by
  induction arguments with
  | nil => rfl
  | cons argument arguments ih => rw [Argument.allRelocated, ih]; rfl

/-! ### Statements -/

instance : Relocate Comment where
  relocate f comment := { comment with span := relocate f comment.span }
  relocate_shift h comment := by
    change Comment.mk _ _ _ _ _ (relocate _ (shift _ _)) = _
    rw [relocate_shift h]
    rfl

instance : Relocate Statement where
  relocate f statement :=
    match statement with
    | .command command => .command (relocate f command)
    | .macroCommand command => .macroCommand (relocate f command)
    | .comment comment => .comment (relocate f comment)
    | .error node => .error (relocate f node)
  relocate_shift h statement := by
    cases statement with
    | command command => exact congrArg Statement.command (relocate_shift h command)
    | macroCommand command => exact congrArg Statement.macroCommand (relocate_shift h command)
    | comment comment => exact congrArg Statement.comment (relocate_shift h comment)
    | error node => exact congrArg Statement.error (relocate_shift h node)

/-- A document with new offsets. -/
def Document.relocate (f : Nat → Nat) (document : Document) : Document :=
  ⟨Mcfunction.relocate f document.statements⟩

/-! ### Trees that stay where they are -/

mutual

/-- All offsets in the outline keep their values. -/
def Outline.Fixed (f : Nat → Nat) : Outline → Prop
  | .node span parts => f span.start = span.start ∧ f span.stop = span.stop ∧
      Outline.AllFixed f parts

/-- All offsets in the outlines keep their values. -/
def Outline.AllFixed (f : Nat → Nat) : List Outline → Prop
  | [] => True
  | part :: parts => part.Fixed f ∧ Outline.AllFixed f parts

end

mutual

/-- What stands before a place stays if all offsets up to that place keep their values. -/
theorem Outline.At.fixed {f : Nat → Nat} {c d : Cursor} (h : ∀ n ≤ d.offset, f n = n) :
    ∀ {outline : Outline}, outline.At c d → outline.Fixed f
  | .node _ _, ⟨hlt, hspan, hparts⟩ => by
      subst hspan
      exact ⟨h _ (Cursor.offset_le_of_le hlt.le), h _ le_rfl, hparts.fixed h⟩

/-- So do several nodes. -/
theorem Outline.AllAt.fixed {f : Nat → Nat} {c d : Cursor} (h : ∀ n ≤ d.offset, f n = n) :
    ∀ {parts : List Outline}, Outline.AllAt parts c d → Outline.AllFixed f parts
  | [], _ => trivial
  | _ :: _, ⟨_, _, _, hpart, hparts⟩ => by
      have hle := Cursor.offset_le_of_le hparts.le
      exact ⟨hpart.fixed fun n hn => h n (hn.trans hle), hparts.fixed h⟩

end

variable {f : Nat → Nat}

/-- The span of an outline whose offsets keep their values stays as it is. -/
theorem Span.relocate_eq_self {span : Span} {parts : List Outline}
    (h : (Outline.node span parts).Fixed f) : relocate f span = span :=
  congrArg₂ Span.mk h.1 h.2.1

/-- The parts of an outline whose offsets keep their values keep theirs. -/
theorem Outline.Fixed.parts {span : Span} {parts : List Outline}
    (h : (Outline.node span parts).Fixed f) : Outline.AllFixed f parts :=
  h.2.2

/-- Several trees stay if each of them does. -/
theorem relocate_list_eq_self {α : Type} [Shift α] [Relocate α] {outline : α → Outline}
    {values : List α} (hvalue : ∀ value, (outline value).Fixed f → relocate f value = value)
    (h : Outline.AllFixed f (values.map outline)) : relocate f values = values := by
  induction values with
  | nil => rfl
  | cons value values ih =>
      rw [relocate_cons, hvalue value h.1, ih h.2]

/-- A run of characters whose offsets keep their values stays as it is. -/
theorem TextRun.relocate_eq_self {run : TextRun} (h : (Outline.leaf run.span).Fixed f) :
    relocate f run = run :=
  congrArg (TextRun.mk run.text) (Span.relocate_eq_self h)

/-- A string whose offsets keep their values stays as it is. -/
theorem StringLiteral.relocate_eq_self {literal : StringLiteral}
    (h : (Outline.leaf literal.span).Fixed f) : relocate f literal = literal :=
  congrArg (StringLiteral.mk literal.value literal.quote) (Span.relocate_eq_self h)

/-- A fragment whose offsets keep their values stays as it is. -/
theorem Fragment.relocate_eq_self (fragment : Fragment)
    (h : (Outline.leaf fragment.span).Fixed f) : relocate f fragment = fragment := by
  cases fragment with
  | literal run => exact congrArg Fragment.literal (TextRun.relocate_eq_self h)
  | interpolation piece =>
      exact congrArg (fun span => Fragment.interpolation ⟨piece.expression, span⟩)
        (Span.relocate_eq_self h)
  | quoted run => exact congrArg Fragment.quoted (TextRun.relocate_eq_self h)

/-- A macro argument whose offsets keep their values stays as it is. -/
theorem Interpolated.relocate_eq_self {argument : Interpolated} (h : argument.outline.Fixed f) :
    relocate f argument = argument := by
  obtain ⟨fragments, quote, span⟩ := argument
  exact congrArg₂ (fun fragments span => Interpolated.mk fragments quote span)
    (relocate_list_eq_self Fragment.relocate_eq_self h.parts) (Span.relocate_eq_self h)

/-- A part of coordinates whose offsets keep their values stays as it is. -/
theorem CoordinatePart.relocate_eq_self {part : CoordinatePart}
    (h : (Outline.leaf part.span).Fixed f) : relocate f part = part := by
  cases part with
  | absolute value suffix span =>
      exact congrArg (CoordinatePart.absolute value suffix) (Span.relocate_eq_self h)
  | relative offset span =>
    exact congrArg (CoordinatePart.relative offset) (Span.relocate_eq_self h)
  | localTo offset span => exact congrArg (CoordinatePart.localTo offset) (Span.relocate_eq_self h)

/-- Coordinates whose offsets keep their values stay as they are. -/
theorem Coordinates.relocate_eq_self {coordinates : Coordinates}
    (h : coordinates.outline.Fixed f) : relocate f coordinates = coordinates := by
  obtain ⟨⟨x, y, z⟩, span⟩ := coordinates
  obtain ⟨hx, hy, hz, -⟩ := h.parts
  change Coordinates.mk ⟨relocate f x, relocate f y, relocate f z⟩ (relocate f span) = _
  rw [CoordinatePart.relocate_eq_self hx, CoordinatePart.relocate_eq_self hy,
    CoordinatePart.relocate_eq_self hz, Span.relocate_eq_self h]

/-- A key whose offsets keep their values stays as it is. -/
theorem NbtKey.relocate_eq_self {key : NbtKey} (h : key.outline.Fixed f) :
    relocate f key = key := by
  cases key with
  | plain literal => exact congrArg NbtKey.plain (StringLiteral.relocate_eq_self h)
  | interpolated argument => exact congrArg NbtKey.interpolated (Interpolated.relocate_eq_self h)

mutual

/-- A value whose offsets keep their values stays as it is. -/
theorem NbtValue.relocated_eq_self :
    (value : NbtValue) → value.outline.Fixed f → value.relocated f = value
  | .list node, h => congrArg NbtValue.list (node.relocated_eq_self h)
  | .compound node, h => congrArg NbtValue.compound (node.relocated_eq_self h)
  | .string _, h => congrArg NbtValue.string (StringLiteral.relocate_eq_self h)
  | .number node, h =>
    congrArg (fun span => NbtValue.number ⟨node.value, node.suffix, node.raw, span⟩)
      (Span.relocate_eq_self h)
  | .resource node, h =>
    congrArg (fun span => NbtValue.resource ⟨node.space, node.path, span⟩)
      (Span.relocate_eq_self h)
  | .boolean node, h =>
    congrArg (fun span => NbtValue.boolean ⟨node.value, span⟩) (Span.relocate_eq_self h)
  | .interpolated _, h => congrArg NbtValue.interpolated (Interpolated.relocate_eq_self h)
  | .error node, h =>
    congrArg (fun span => NbtValue.error ⟨node.message, span⟩) (Span.relocate_eq_self h)

/-- Items of a list whose offsets keep their values stay as they are. -/
theorem NbtItems.relocated_eq_self :
    (items : NbtItems) → Outline.AllFixed f items.outlines → items.relocated f = items
  | .pairs elements, h => congrArg NbtItems.pairs (NbtPair.allRelocated_eq_self elements h)
  | .values elements, h => congrArg NbtItems.values (NbtValue.allRelocated_eq_self elements h)

/-- A list whose offsets keep their values stays as it is. -/
theorem NbtList.relocated_eq_self :
    (list : NbtList) → list.outline.Fixed f → list.relocated f = list
  | ⟨items, _⟩, h =>
    congrArg₂ NbtList.mk (items.relocated_eq_self h.parts) (Span.relocate_eq_self h)

/-- A compound whose offsets keep their values stays as it is. -/
theorem NbtCompound.relocated_eq_self :
    (compound : NbtCompound) → compound.outline.Fixed f → compound.relocated f = compound
  | ⟨pairs, _⟩, h =>
    congrArg₂ NbtCompound.mk (NbtPair.allRelocated_eq_self pairs h.parts) (Span.relocate_eq_self h)

/-- A pair whose offsets keep their values stays as it is. -/
theorem NbtPair.relocated_eq_self :
    (pair : NbtPair) → pair.outline.Fixed f → pair.relocated f = pair
  | ⟨key, operator, value, span⟩, h => by
    rw [NbtPair.relocated, NbtKey.relocate_eq_self h.parts.1, value.relocated_eq_self h.parts.2.1,
      Span.relocate_eq_self h]

/-- Pairs whose offsets keep their values stay as they are. -/
theorem NbtPair.allRelocated_eq_self : (pairs : List NbtPair) →
    Outline.AllFixed f (NbtPair.outlines pairs) → NbtPair.allRelocated f pairs = pairs
  | [], _ => rfl
  | pair :: pairs, h =>
    congrArg₂ List.cons (pair.relocated_eq_self h.1) (NbtPair.allRelocated_eq_self pairs h.2)

/-- Values whose offsets keep their values stay as they are. -/
theorem NbtValue.allRelocated_eq_self : (values : List NbtValue) →
    Outline.AllFixed f (NbtValue.outlines values) → NbtValue.allRelocated f values = values
  | [], _ => rfl
  | value :: values, h =>
    congrArg₂ List.cons (value.relocated_eq_self h.1) (NbtValue.allRelocated_eq_self values h.2)

end

/-- A path suffix whose offsets keep their values stays as it is. -/
theorem PathSuffix.relocate_eq_self (suffix : PathSuffix) (h : suffix.outline.Fixed f) :
    relocate f suffix = suffix := by
  cases suffix with
  | index list => exact congrArg PathSuffix.index (list.relocated_eq_self h)
  | filter compound => exact congrArg PathSuffix.filter (compound.relocated_eq_self h)

/-- A segment of a path whose offsets keep their values stays as it is. -/
theorem PathSegment.relocate_eq_self (segment : PathSegment) (h : segment.outline.Fixed f) :
    relocate f segment = segment := by
  obtain ⟨name, suffixes, span⟩ := segment
  change PathSegment.mk (relocate f name) (relocate f suffixes) (relocate f span) = _
  rw [NbtKey.relocate_eq_self h.parts.1, Span.relocate_eq_self h,
    relocate_list_eq_self PathSuffix.relocate_eq_self h.parts.2]

/-- A selector whose offsets keep their values stays as it is. -/
theorem Selector.relocate_eq_self {selector : Selector} (h : selector.outline.Fixed f) :
    relocate f selector = selector := by
  obtain ⟨target, filter, span⟩ := selector
  refine congrArg₂ (Selector.mk target) ?_ (Span.relocate_eq_self h)
  cases filter with
  | none => rfl
  | some list => exact congrArg some (list.relocated_eq_self h.parts.1)

/-- A macro name whose offsets keep their values stays as it is. -/
theorem MacroName.relocate_eq_self {name : MacroName} (h : (Outline.leaf name.span).Fixed f) :
    relocate f name = name := by
  cases name with
  | literal run => exact congrArg MacroName.literal (TextRun.relocate_eq_self h)
  | interpolation piece =>
      exact congrArg (fun span => MacroName.interpolation ⟨piece.expression, span⟩)
        (Span.relocate_eq_self h)

mutual

/-- An argument whose offsets keep their values stays as it is. -/
theorem Argument.relocated_eq_self :
    (argument : Argument) → argument.outline.Fixed f → argument.relocated f = argument
  | .run node, h => congrArg Argument.run (node.relocated_eq_self h)
  | .coordinates _, h => congrArg Argument.coordinates (Coordinates.relocate_eq_self h)
  | .string _, h => congrArg Argument.string (StringLiteral.relocate_eq_self h)
  | .number node, h =>
    congrArg (fun span => Argument.number ⟨node.value, node.suffix, node.raw, span⟩)
      (Span.relocate_eq_self h)
  | .resource node, h =>
    congrArg (fun span => Argument.resource ⟨node.space, node.path, span⟩)
      (Span.relocate_eq_self h)
  | .selector _, h => congrArg Argument.selector (Selector.relocate_eq_self h)
  | .list node, h => congrArg Argument.list (node.relocated_eq_self h)
  | .compound node, h => congrArg Argument.compound (node.relocated_eq_self h)
  | .boolean node, h =>
    congrArg (fun span => Argument.boolean ⟨node.value, span⟩) (Span.relocate_eq_self h)
  | .fakePlayer node, h =>
    congrArg (fun span => Argument.fakePlayer ⟨node.name, span⟩) (Span.relocate_eq_self h)
  | .path _, h =>
    congrArg₂ (fun segments span => Argument.path ⟨segments, span⟩)
      (relocate_list_eq_self PathSegment.relocate_eq_self h.parts) (Span.relocate_eq_self h)
  | .keyword _, h => congrArg Argument.keyword (TextRun.relocate_eq_self h)
  | .interpolated _, h => congrArg Argument.interpolated (Interpolated.relocate_eq_self h)
  | .error node, h =>
    congrArg (fun span => Argument.error ⟨node.message, span⟩) (Span.relocate_eq_self h)

/-- A run clause whose offsets keep their values stays as it is. -/
theorem RunClause.relocated_eq_self :
    (clause : RunClause) → clause.outline.Fixed f → clause.relocated f = clause
  | ⟨subcommand, _⟩, h =>
    congrArg₂ RunClause.mk (subcommand.relocated_eq_self h.parts.1) (Span.relocate_eq_self h)

/-- A subcommand whose offsets keep their values stays as it is. -/
theorem Subcommand.relocated_eq_self :
    (subcommand : Subcommand) → subcommand.outline.Fixed f → subcommand.relocated f = subcommand
  | .command node, h => congrArg Subcommand.command (node.relocated_eq_self h)
  | .macroCommand node, h => congrArg Subcommand.macroCommand (node.relocated_eq_self h)

/-- A command whose offsets keep their values stays as it is. -/
theorem Command.relocated_eq_self :
    (command : Command) → command.outline.Fixed f → command.relocated f = command
  | ⟨name, arguments, span⟩, h => by
    rw [Command.relocated, TextRun.relocate_eq_self h.parts.1,
      Argument.allRelocated_eq_self arguments h.parts.2, Span.relocate_eq_self h]

/-- A macro command whose offsets keep their values stays as it is. -/
theorem MacroCommand.relocated_eq_self :
    (command : MacroCommand) → command.outline.Fixed f → command.relocated f = command
  | ⟨name, arguments, span⟩, h => by
    rw [MacroCommand.relocated, MacroName.relocate_eq_self h.parts.1,
      Argument.allRelocated_eq_self arguments h.parts.2, Span.relocate_eq_self h]

/-- Arguments whose offsets keep their values stay as they are. -/
theorem Argument.allRelocated_eq_self : (arguments : List Argument) →
    Outline.AllFixed f (Argument.outlines arguments) → Argument.allRelocated f arguments = arguments
  | [], _ => rfl
  | argument :: arguments, h =>
    congrArg₂ List.cons (argument.relocated_eq_self h.1)
      (Argument.allRelocated_eq_self arguments h.2)

end

/-- A statement whose offsets keep their values stays as it is. -/
theorem Statement.relocate_eq_self {statement : Statement} (h : statement.outline.Fixed f) :
    relocate f statement = statement := by
  cases statement with
  | command command => exact congrArg Statement.command (command.relocated_eq_self h)
  | macroCommand command => exact congrArg Statement.macroCommand (command.relocated_eq_self h)
  | comment comment =>
      exact congrArg (fun span => Statement.comment { comment with span := span })
        (Span.relocate_eq_self h)
  | error node =>
      exact congrArg (fun span => Statement.error ⟨node.message, span⟩) (Span.relocate_eq_self h)

end Mcfunction
