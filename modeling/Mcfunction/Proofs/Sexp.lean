import Mcfunction.Proofs.Modes
import Mcfunction.Tree.Sexp

/-!
# Printing Parsed Documents

The S-expression of a tree computes places of its own: the two parts of a resource location, the
target of a selector, the parts of a comment. Each computation is checked, and none is refused
for a tree that a parser built, as long as its offsets fit into 64 bits: the pieces of the tree
stand where their spans say, and hold as many bytes as their spans cover.

## Main results

* `StatementsAt.toSexp_kept`: the documents that stand in a text of less than `offsetLimit` bytes
  are printed.
* `parse_keeps_promises`: no parse breaks a promise, a tolerant parse never fails, and what any
  parse gives is printed, with and without places.
-/

namespace Mcfunction

/-! ### Results that keep their promises -/

/-- No promise is broken on the way to the result. -/
def Kept {α : Type} (result : Except Fault α) : Prop :=
  ∃ value, result = .ok value

namespace Kept

variable {α β : Type} {result : Except Fault α}

/-- A value breaks no promise. -/
theorem ok (value : α) : Kept (.ok value) :=
  ⟨value, rfl⟩

/-- Turning a result into another breaks no promise. -/
theorem map {f : α → β} (h : Kept result) : Kept (result.map f) := by
  obtain ⟨value, rfl⟩ := h
  exact ⟨f value, rfl⟩

/-- Two steps break no promise if neither does. -/
theorem bind {f : α → Except Fault β} (h : Kept result) (hf : ∀ value, Kept (f value)) :
    Kept (result >>= f) := by
  obtain ⟨value, rfl⟩ := h
  exact hf value

/-- What follows a result that is known. -/
theorem ok_bind {value : α} {f : α → Except Fault β} (h : Kept (f value)) :
    Kept (Except.ok value >>= f) :=
  h

/-- A span with its ends in order can be made. -/
theorem between {start stop : Nat} (h : start ≤ stop) : Kept (Span.between start stop) := by
  rw [Span.between, if_pos h]
  exact .ok _

end Kept

/-- An offset below the largest is the sum. -/
theorem offsetPast_eq {offset count : Nat} (h : offset + count < offsetLimit) :
    offsetPast offset count = .ok (offset + count) := by
  rw [offsetPast, if_pos h]

/-- Pairs are printed if each of them is. -/
theorem NbtPair.toSexps_kept {pairs : List NbtPair} (h : ∀ pair ∈ pairs, Kept pair.toSexp) :
    Kept (NbtPair.toSexps pairs) := by
  induction pairs with
  | nil => exact .ok []
  | cons pair pairs ih =>
      rw [NbtPair.toSexps]
      exact (h pair (by simp)).bind fun _ => (ih fun pair hmem => h pair (by simp [hmem])).bind
        fun _ => .ok _

/-- Values are printed if each of them is. -/
theorem NbtValue.toSexps_kept {values : List NbtValue}
    (h : ∀ value ∈ values, Kept value.toSexp) : Kept (NbtValue.toSexps values) := by
  induction values with
  | nil => exact .ok []
  | cons value values ih =>
      rw [NbtValue.toSexps]
      exact (h value (by simp)).bind fun _ => (ih fun value hmem => h value (by simp [hmem])).bind
        fun _ => .ok _

/-! ### Leaves -/

variable {c d : Cursor}

/-- The text of the next `n` characters is as long as the way to behind them. -/
theorem Cursor.utf8ByteSize_textBetween {n : Nat} (h : n ≤ c.rest.length) :
    c.offset + (c.textBetween 0 n).utf8ByteSize = (c.advance n).offset := by
  rw [Cursor.advance_offset h, ← byteWidth_eq_utf8ByteSize, Cursor.textBetween,
    String.toList_ofList, List.drop_zero, Nat.sub_zero]

/-- The parts of a resource location have spans, since it ends below the largest offset. -/
theorem resourceLocation_toSexp_kept {space path : Nat}
    (hspace : Scan.resourceNamespace c.rest = some space)
    (hpath : Scan.path (c.rest.drop (space + 1)) = some path)
    (hbound : (c.advance (space + 1 + path)).offset < offsetLimit) :
    Kept (c.resourceLocation space path).toSexp := by
  obtain ⟨-, tail, hcolon⟩ := Scan.resourceNamespace_eq_some hspace
  have hlen := (Scan.inline_location hspace hpath).le_length
  have hsize : c.offset + (c.textBetween 0 space).utf8ByteSize = (c.advance space).offset :=
    Cursor.utf8ByteSize_textBetween (by omega)
  have hnext : (c.advance (space + 1)).offset = (c.advance space).offset + 1 :=
    Cursor.advance_succ_offset hcolon rfl
  have hstart := Cursor.offset_le_of_le (Cursor.le_advance (c := c) (n := space) (by omega))
  have hend := Cursor.offset_le_of_le
    (Cursor.advance_le_advance (c := c) (m := space + 1) (n := space + 1 + path) (by omega) hlen)
  rw [ResourceLocation.toSexp]
  simp only [Cursor.resourceLocation, Cursor.spanTo]
  rw [offsetPast_eq (by omega), hsize]
  refine .ok_bind (.bind (.between hstart) fun _ => ?_)
  rw [offsetPast_eq (by omega), ← hnext]
  exact .ok_bind (.bind (.between hend) fun _ => .ok _)

/-! ### NBT -/

/-- The pieces that end below the largest offset are printed. -/
def Printed {α β : Type} (print : α → Except Fault β) (piece : Cursor → α → Cursor → Prop) :
    Prop :=
  ∀ c value d, piece c value d → d.offset < offsetLimit → Kept (print value)

/-- Every element of a container ends before the container does. -/
theorem ElementsAt.exists_of_mem {α : Type} {element : Cursor → α → Cursor → Prop}
    {closer : Char} {values : List α} {value : α} (hcloser : closer ≠ '\n')
    (helement : Forward element) (h : ElementsAt element closer c values d)
    (hmem : value ∈ values) : ∃ a b, element a value b ∧ b ≤ d := by
  induction h with
  | @last a b _ hvalue hpeek =>
      obtain rfl := List.mem_singleton.mp hmem
      exact ⟨a, b, hvalue, b.le_skipTrivia.trans (Within.peek hpeek hcloser).1.le⟩
  | @next a b _ _ _ hvalue hpeek htail ih =>
      rcases List.mem_cons.mp hmem with rfl | hmem
      · have hnext := (Within.peek hpeek (by decide)).1.le.trans (Cursor.le_skipTrivia _)
        exact ⟨a, b, hvalue, (b.le_skipTrivia.trans hnext).trans
          (ElementsAt.forward hcloser helement _ _ _ htail).1.le⟩
      · exact ih hmem

section Containers

variable {piece : Cursor → NbtValue → Cursor → Prop} (hpiece : Forward piece)
  (hprinted : Printed NbtValue.toSexp piece)

include hprinted

/-- Pairs are printed if their values are. -/
theorem PairAt.printed : Printed NbtPair.toSexp (PairAt piece) := by
  rintro c _ d ⟨hkey, hoperator, hinner⟩ hbound
  rw [NbtPair.toSexp]
  exact (hprinted _ _ _ hinner hbound).map

include hpiece

/-- The pairs of a container are printed, since each ends before the container does. -/
theorem ElementsAt.pairs_printed {closer : Char} (hcloser : closer ≠ '\n') :
    Printed NbtPair.toSexps (ElementsAt (PairAt piece) closer) := by
  intro c pairs d h hbound
  refine NbtPair.toSexps_kept fun pair hmem => ?_
  obtain ⟨a, b, hpair, hle⟩ :=
    h.exists_of_mem hcloser (fun _ _ _ h => (h.placed hpiece).forward) hmem
  exact PairAt.printed hprinted a pair b hpair
    ((Cursor.offset_le_of_le hle).trans_lt hbound)

/-- The items of a list are printed. -/
theorem ListOfAt.items_printed :
    Printed (fun list => list.items.toSexps) (ListOfAt piece) := by
  intro c list d h hbound
  cases h with
  | empty => exact .ok []
  | pairs _ _ h =>
      simp only [NbtItems.toSexps]
      exact ElementsAt.pairs_printed hpiece hprinted (by decide) _ _ _ h hbound
  | values _ _ h =>
      simp only [NbtItems.toSexps]
      refine NbtValue.toSexps_kept fun value hmem => ?_
      obtain ⟨a, b, hvalue, hle⟩ := h.exists_of_mem (by decide) hpiece hmem
      exact hprinted a value b hvalue ((Cursor.offset_le_of_le hle).trans_lt hbound)

/-- A list is printed if its values are. -/
theorem ListOfAt.printed : Printed NbtList.toSexp (ListOfAt piece) := by
  intro c list d h hbound
  have hitems := ListOfAt.items_printed hpiece hprinted c list d h hbound
  obtain ⟨items, span⟩ := list
  rw [NbtList.toSexp]
  exact hitems.map

/-- The pairs of a compound are printed. -/
theorem CompoundOfAt.pairs_printed :
    Printed (fun compound => NbtPair.toSexps compound.pairs) (CompoundOfAt piece) := by
  intro c compound d h hbound
  cases h with
  | mk _ h => exact ElementsAt.pairs_printed hpiece hprinted (by decide) _ _ _ h hbound

/-- A compound is printed if its values are. -/
theorem CompoundOfAt.printed : Printed NbtCompound.toSexp (CompoundOfAt piece) := by
  intro c compound d h hbound
  have hpairs := CompoundOfAt.pairs_printed hpiece hprinted c compound d h hbound
  obtain ⟨pairs, span⟩ := compound
  rw [NbtCompound.toSexp]
  exact hpairs.map

end Containers

/-- A value is printed if lists and compounds are. -/
theorem ValueOfAt.printed {list : Cursor → NbtList → Cursor → Prop}
    {compound : Cursor → NbtCompound → Cursor → Prop} (hlist : Printed NbtList.toSexp list)
    (hcompound : Printed NbtCompound.toSexp compound) :
    Printed NbtValue.toSexp (ValueOfAt list compound) := by
  intro c value d h hbound
  cases h with
  | list h =>
      rw [NbtValue.toSexp]
      exact hlist _ _ _ h hbound
  | compound h =>
      rw [NbtValue.toSexp]
      exact hcompound _ _ _ h hbound
  | resource hspace hpath =>
      rw [NbtValue.toSexp]
      exact resourceLocation_toSexp_kept hspace hpath hbound
  | interpolated | quoted | error | number | boolean | word =>
      rw [NbtValue.toSexp]
      exact .ok _

/-- The values of a document are printed, whatever room for nesting was left. -/
theorem ValueAt.printed (room : Nat) : Printed NbtValue.toSexp (ValueAt room) := by
  induction room with
  | zero => exact ValueOfAt.printed (fun _ _ _ h => h.elim) (fun _ _ _ h => h.elim)
  | succ room ih =>
      exact ValueOfAt.printed (ListOfAt.printed (ValueAt.forward room) ih)
        (CompoundOfAt.printed (ValueAt.forward room) ih)

/-- The items of its lists are printed. -/
theorem ListAt.items_printed (room : Nat) :
    Printed (fun list => list.items.toSexps) (ListAt room) := by
  cases room with
  | zero => exact fun _ _ _ h => h.elim
  | succ room => exact ListOfAt.items_printed (ValueAt.forward room) (ValueAt.printed room)

/-- Its lists are printed. -/
theorem ListAt.printed (room : Nat) : Printed NbtList.toSexp (ListAt room) := by
  cases room with
  | zero => exact fun _ _ _ h => h.elim
  | succ room => exact ListOfAt.printed (ValueAt.forward room) (ValueAt.printed room)

/-- The pairs of its compounds are printed. -/
theorem CompoundAt.pairs_printed (room : Nat) :
    Printed (fun compound => NbtPair.toSexps compound.pairs) (CompoundAt room) := by
  cases room with
  | zero => exact fun _ _ _ h => h.elim
  | succ room => exact CompoundOfAt.pairs_printed (ValueAt.forward room) (ValueAt.printed room)

/-- Its compounds are printed. -/
theorem CompoundAt.printed (room : Nat) : Printed NbtCompound.toSexp (CompoundAt room) := by
  cases room with
  | zero => exact fun _ _ _ h => h.elim
  | succ room => exact CompoundOfAt.printed (ValueAt.forward room) (ValueAt.printed room)

/-! ### Paths and selectors -/

/-- The suffixes of a key are printed. -/
theorem SuffixesAt.printed {room : Nat} {suffixes : List PathSuffix}
    (h : SuffixesAt room c suffixes d) (hbound : d.offset < offsetLimit) :
    Kept (suffixes.mapM PathSuffix.toSexps) := by
  induction h with
  | nil => exact .ok []
  | index h htail ih =>
      have hlt := (Cursor.offset_le_of_le htail.within.le).trans_lt hbound
      rw [List.mapM_cons, PathSuffix.toSexps]
      exact (ListAt.items_printed room _ _ _ h hlt).bind fun _ => (ih hbound).bind fun _ => .ok _
  | filter h htail ih =>
      have hlt := (Cursor.offset_le_of_le htail.within.le).trans_lt hbound
      rw [List.mapM_cons, PathSuffix.toSexps]
      exact (CompoundAt.pairs_printed room _ _ _ h hlt).bind fun _ => (ih hbound).bind
        fun _ => .ok _

/-- The segments of a path are printed. -/
theorem SegmentsAt.printed {room : Nat} {start : Cursor} {name : NbtKey}
    {segments : List PathSegment} (h : SegmentsAt room start name c segments d)
    (hbound : d.offset < offsetLimit) : Kept (segments.mapM PathSegment.toSexps) := by
  induction h with
  | last h _ =>
      rw [List.mapM_cons, PathSegment.toSexps]
      exact ((h.printed hbound).bind fun _ => .ok _).bind fun _ => .ok _
  | next h hpoint hkey htail ih =>
      have hnext := (Within.peek hpoint (by decide)).1.le
      have hlt := (Cursor.offset_le_of_le
        ((hnext.trans hkey.placed.le).trans htail.within.le)).trans_lt hbound
      rw [List.mapM_cons, PathSegment.toSexps]
      exact ((h.printed hlt).bind fun _ => .ok _).bind fun _ =>
        (ih hbound).bind fun _ => .ok _

/-- Paths are printed. -/
theorem PathAt.printed (room : Nat) : Printed NbtPath.toSexp (PathAt room) := by
  rintro c _ d ⟨-, -, h⟩ hbound
  rw [NbtPath.toSexp]
  exact (h.printed hbound).bind fun _ => .ok _

/-- A selector has room for its target, which takes two bytes or more. -/
theorem SelectorAt.offset_add_two_le {room : Nat} {selector : Selector}
    (h : SelectorAt room c selector d) : c.offset + 2 ≤ d.offset := by
  have hpair : ∀ {target}, c.peek = some '@' →
      (c.advance 1).peek.bind SelectorTarget.ofChar? = some target →
      c.offset + 2 ≤ (c.advance 2).offset := by
    intro target hat htarget
    have hlen := (inline_target hat htarget).le_length
    have hwidth := length_le_byteWidth (c.rest.take 2)
    rw [Cursor.advance_offset hlen]
    rw [List.length_take, Nat.min_eq_left hlen] at hwidth
    omega
  cases h with
  | target hat htarget _ => exact hpair hat htarget
  | filtered hat htarget h =>
      exact (hpair hat htarget).trans (Cursor.offset_le_of_le h.placed.le)

/-- Selectors are printed. -/
theorem SelectorAt.printed (room : Nat) : Printed Selector.toSexp (SelectorAt room) := by
  intro c selector d h hbound
  have htarget : c.offset + 2 < offsetLimit := h.offset_add_two_le.trans_lt hbound
  have hstart : selector.span.start = c.offset := by
    rw [h.placed.span_eq]
    rfl
  rw [Selector.toSexp]
  simp only [hstart]
  rw [offsetPast_eq htarget]
  refine .ok_bind ?_
  cases h with
  | target => exact .ok _
  | filtered _ _ h => exact (ListAt.printed room _ _ _ h hbound).bind fun _ => .ok _

/-! ### Commands -/

/-- Arguments are printed if run clauses are. -/
theorem ArgumentAt.printed {room : Nat} {run : Cursor → Cursor → RunClause → Cursor → Prop}
    {inMacro : Bool} (hrun : ∀ c, Printed RunClause.toSexp (run c)) :
    Printed Argument.toSexp (ArgumentAt room run inMacro) := by
  intro c argument d h hbound
  cases h with
  | path h =>
      rw [Argument.toSexp]
      exact PathAt.printed room _ _ _ h hbound
  | selector h =>
      rw [Argument.toSexp]
      exact SelectorAt.printed room _ _ _ h hbound
  | list h =>
      rw [Argument.toSexp]
      exact ListAt.printed room _ _ _ h hbound
  | compound h =>
      rw [Argument.toSexp]
      exact CompoundAt.printed room _ _ _ h hbound
  | resource hspace hpath =>
      rw [Argument.toSexp]
      exact resourceLocation_toSexp_kept hspace hpath hbound
  | run _ _ _ h =>
      rw [Argument.toSexp]
      exact hrun _ _ _ _ h hbound
  | interpolated | coordinates | quoted | fakePlayer | number | boolean | keyword =>
      rw [Argument.toSexp]
      exact .ok _

/-- A list of arguments is printed if each argument is. -/
theorem ArgumentListAt.printed {argument : Cursor → Argument → Cursor → Prop}
    {afterError : Bool} (hargument : Forward argument)
    (hprinted : Printed Argument.toSexp argument) :
    Printed Argument.toSexps (ArgumentListAt argument afterError) := by
  intro c arguments d h hbound
  induction h with
  | nil => exact .ok []
  | cons _ _ h htail ih =>
      have hlt := (Cursor.offset_le_of_le (htail.within hargument).le).trans_lt hbound
      rw [Argument.toSexps]
      exact (hprinted _ _ _ h hlt).bind fun _ => (ih hbound).bind fun _ => .ok _
  | error _ _ _ ih =>
      rw [Argument.toSexps, Argument.toSexp]
      exact .ok_bind ((ih hbound).bind fun _ => .ok _)

section Commands

variable {field : Option String}

/-- A command is printed if its arguments are. -/
theorem CommandAt.printed {arguments : Cursor → List Argument → Cursor → Prop}
    (harguments : Printed Argument.toSexps arguments) :
    Printed (Command.toSexp field) (CommandAt arguments) := by
  rintro c _ d ⟨-, h⟩ hbound
  rw [Command.toSexp]
  exact (harguments _ _ _ h hbound).map

/-- A macro command is printed if its arguments are. -/
theorem MacroCommandAt.printed {arguments : Cursor → List Argument → Cursor → Prop}
    (harguments : Printed Argument.toSexps arguments) :
    Printed (MacroCommand.toSexp field) (MacroCommandAt arguments) := by
  rintro c _ d ⟨-, -, h⟩ hbound
  rw [MacroCommand.toSexp]
  exact (harguments _ _ _ h hbound).map

/-- A run clause is printed if its arguments are. -/
theorem RunClauseAt.printed {arguments : Bool → Cursor → List Argument → Cursor → Prop}
    {inMacro : Bool} (harguments : ∀ inMacro, Printed Argument.toSexps (arguments inMacro))
    (start : Cursor) : Printed RunClause.toSexp (RunClauseAt arguments inMacro start) := by
  intro c clause d h hbound
  cases h with
  | command h =>
      obtain ⟨hname, h⟩ := h
      have hargs := harguments inMacro _ _ _ h hbound
      rw [RunClause.toSexp, Parser.subcommandOf]
      refine Kept.map ?_
      split
      · rw [Subcommand.toSexp, MacroCommand.toSexp]
        exact hargs.map
      · rw [Subcommand.toSexp, Command.toSexp]
        exact hargs.map
  | macroCommand h =>
      rw [RunClause.toSexp, Subcommand.toSexp]
      exact (MacroCommandAt.printed (harguments true) _ _ _ h hbound).map

end Commands

/-- Arguments are printed, whatever room for nesting was left. -/
theorem ArgumentsAt.printed (room : Nat) (inMacro : Bool) :
    Printed Argument.toSexps (ArgumentsAt room inMacro) := by
  induction room generalizing inMacro with
  | zero =>
      exact ArgumentListAt.printed
        (fun _ _ _ h => (h.placed fun _ _ _ _ h => h.elim).forward)
        (ArgumentAt.printed fun _ _ _ _ h => h.elim)
  | succ room ih =>
      have hplaced := ArgumentsAt.argumentsPlaced room
      exact ArgumentListAt.printed
        (fun _ _ _ h => (h.placed fun _ _ _ _ h => h.within hplaced).forward)
        (ArgumentAt.printed fun start => RunClauseAt.printed ih start)

/-! ### Comments -/

/-- A piece of text has at most as many bytes as there are between its ends. -/
theorem Span.utf8ByteSize_slice? {span : Span} {source text : String}
    (h : span.slice? source = some text) : text.utf8ByteSize ≤ span.stop - span.start := by
  have hoffset : ∀ {offset} {pos : source.Pos}, source.pos? ⟨offset⟩ = some pos →
      pos.offset.byteIdx = offset := by
    intro offset pos hpos
    obtain ⟨pos', hpos', rfl⟩ := Option.map_eq_some_iff.mp hpos
    rw [String.Slice.pos?] at hpos'
    split at hpos'
    · cases hpos'
      rfl
    · cases hpos'
  rw [Span.slice?] at h
  split at h
  · split at h
    · rename_i first last hfirst hlast
      cases h
      rw [← String.size_toByteArray, String.toByteArray_extract, ByteArray.size_extract,
        hoffset hfirst, hoffset hlast]
      omega
    · cases h
  · cases h

/-- A text has no more characters than bytes. -/
theorem length_toList_le_utf8ByteSize (text : String) : text.toList.length ≤ text.utf8ByteSize := by
  rw [← byteWidth_eq_utf8ByteSize]
  exact length_le_byteWidth _

/-- The blanks at the front of a piece of text are part of it. -/
theorem Span.trimStart_kept {span : Span} (source : Option String)
    (hspan : span.start ≤ span.stop) : Kept (span.trimStart source) := by
  rw [Span.trimStart]
  split
  · rename_i text htext
    obtain ⟨source, -, htext⟩ := Option.bind_eq_some_iff.mp htext
    have hsize := Span.utf8ByteSize_slice? htext
    have hlength := length_toList_le_utf8ByteSize text
    have hblanks := (List.takeWhile_prefix (l := text.toList)
      fun c => c == ' ' || c == '\t').length_le
    exact .between (by omega)
  · exact .ok _

/-- A part of a comment with its ends in order can be shown. -/
theorem Comment.part_kept (source : Option String) (field kind : String) (text : Option String)
    {start stop : Nat} (h : start ≤ stop) :
    Kept (Comment.part source field kind text start stop) := by
  rw [Comment.part]
  split
  · rw [Span.between, if_pos h]
    exact .ok_bind ((Span.trimStart_kept source h).bind fun _ => .ok _)
  · exact .ok _

/-- The colon of a directive stands in its text. -/
theorem Span.colon?_bounds {span : Span} {source : Option String} {colon : Nat}
    (h : span.colon? source = some colon) : span.start ≤ colon ∧ colon + 1 ≤ span.stop := by
  rw [Span.colon?] at h
  split at h
  · rename_i text htext
    obtain ⟨source, -, htext⟩ := Option.bind_eq_some_iff.mp htext
    have hsize := Span.utf8ByteSize_slice? htext
    rw [← byteWidth_eq_utf8ByteSize] at hsize
    dsimp only at h
    split at h
    · rename_i hcontains
      cases h
      have hsplit := List.takeWhile_append_dropWhile (p := fun x => x != ':') (l := text.toList)
      have hwidth := byteWidth_append (text.toList.takeWhile (· != ':'))
        (text.toList.dropWhile (· != ':'))
      rw [hsplit] at hwidth
      have hpos : 0 < byteWidth (text.toList.dropWhile (· != ':')) := by
        rw [Nat.pos_iff_ne_zero]
        intro hzero
        rw [byteWidth_eq_zero, List.dropWhile_eq_nil_iff] at hzero
        have := hzero ':' (by simpa using hcontains)
        simp at this
      omega
    · cases h
  · cases h

/-- A comment is printed if its tag lies in it. -/
theorem Comment.toSexp_kept {source : Option String} {comment : Comment}
    (htag : comment.span.start + comment.tag.utf8ByteSize ≤ comment.span.stop)
    (hbound : comment.span.stop < offsetLimit) : Kept (comment.toSexp source) := by
  rw [Comment.toSexp]
  dsimp only
  rw [offsetPast_eq (by omega)]
  refine .ok_bind ?_
  rw [Span.between, if_pos htag]
  refine .ok_bind ?_
  split
  · exact (Comment.part_kept source _ _ _ htag).bind fun _ => .ok _
  · exact (Comment.part_kept source _ _ _ htag).bind fun _ => .ok _
  · rcases hcolon : Span.colon? source
        ⟨comment.span.start + comment.tag.utf8ByteSize, comment.span.stop⟩ with _ | colon
    · exact (Comment.part_kept source _ _ _ htag).bind fun _ =>
        (Comment.part_kept source _ _ _ htag).bind fun _ => .ok _
    · obtain ⟨hstart, hstop⟩ := Span.colon?_bounds hcolon
      exact (Comment.part_kept source _ _ _ hstart).bind fun _ =>
        (Comment.part_kept source _ _ _ hstop).bind fun _ => .ok _

/-! ### Documents -/

variable {source : Option String}

/-- A statement is printed if its arguments are. -/
theorem StatementAt.printed {arguments : Bool → Cursor → List Argument → Cursor → Prop}
    (harguments : ∀ inMacro, Printed Argument.toSexps (arguments inMacro)) :
    Printed (Statement.toSexp source) (StatementAt arguments) := by
  intro c statement d h hbound
  cases h with
  | comment =>
      rw [Statement.toSexp]
      have hlen := (Scan.inline_commentTag c.rest).le_length
      have htext : c.advance (Scan.commentTag c.rest).1 ≤
          (c.advance (Scan.commentTag c.rest).1).advance
            (Scan.commentText (c.rest.drop (Scan.commentTag c.rest).1)) := by
        refine Cursor.le_advance ?_
        rw [Cursor.advance_rest]
        exact (Scan.commentText_le_statement _).trans (Scan.statement_le_length _)
      obtain ⟨htag, hspan⟩ := c.comment_tag
      refine Comment.toSexp_kept ?_ ?_
      · rw [htag, hspan]
        exact (Cursor.utf8ByteSize_textBetween hlen).trans_le (Cursor.offset_le_of_le htext)
      · rw [hspan]
        exact hbound
  | command h =>
      rw [Statement.toSexp]
      exact CommandAt.printed (harguments false) _ _ _ h hbound
  | macroCommand h =>
      rw [Statement.toSexp]
      exact MacroCommandAt.printed (harguments true) _ _ _ h hbound
  | error =>
      rw [Statement.toSexp]
      exact .ok _

/-- The documents that stand in a text of less than `offsetLimit` bytes are printed. -/
theorem StatementsAt.toSexp_kept {text : String} {room : Nat} {document : Document}
    (h : StatementsAt (ArgumentsAt room) (.start text) document.statements)
    (hsize : text.utf8ByteSize < offsetLimit) : Kept (document.toSexp source) := by
  have hbound : ∀ {d}, Cursor.start text ≤ d → d.offset < offsetLimit := fun hd =>
    (Cursor.offset_le_utf8ByteSize hd).trans_lt hsize
  have hstatements : ∀ {c statements}, Cursor.start text ≤ c →
      StatementsAt (ArgumentsAt room) c statements →
      Kept (statements.mapM (Statement.toSexp source)) := by
    intro c statements hc h
    induction h with
    | nil => exact .ok []
    | newline hpeek _ ih =>
        exact ih ((hc.trans (Cursor.le_skipTrivia _)).trans
          (Cursor.le_advance_of_peek hpeek))
    | cons hline h _ ih =>
        have hd := (hc.trans (Cursor.le_skipTrivia _)).trans
          (h.forward (ArgumentsAt.argumentsPlaced room) hline).1.le
        rw [List.mapM_cons]
        exact (StatementAt.printed (ArgumentsAt.printed room) _ _ _ h (hbound hd)).bind
          fun _ => (ih hd).bind fun _ => .ok _
  rw [Document.toSexp]
  exact (hstatements le_rfl h).bind fun _ => .ok _

/-- No parse of a text breaks a promise, and a tolerant parse never fails. What a parse gives
is printed without places, and with places in its text, unless the text has more bytes than
there are offsets. -/
theorem parse_keeps_promises (text : String) (options : ParseOptions) :
    (∀ mode fault, Document.run mode options text ≠ .broken fault) ∧
      (∀ error log, Document.run .tolerant options text ≠ .failed error log) ∧
      (text.utf8ByteSize < offsetLimit → ∀ mode document log next,
        Document.run mode options text = .done document log next →
          (∃ plain, document.sexpText = .ok plain) ∧
            ∃ ranged, document.sexpTextWithRanges text = .ok ranged) := by
  have hlockstep := Document.run_lockstep text options
  have hsound : ∀ mode, (Document.run mode options text).Sound (.start text) fun document _ =>
      StatementsAt (ArgumentsAt options.maxDepth) (.start text) document.statements := by
    rintro ⟨⟩
    · exact hlockstep.sound_strict
    · exact hlockstep.sound_tolerant
  refine ⟨?_, ?_, ?_⟩
  · intro mode fault hrun
    have h := hsound mode
    rw [hrun] at h
    cases h
  · exact Parser.neverFails_document options.maxDepth (.start text)
  · intro hsize mode document log next hrun
    have h := hsound mode
    rw [hrun] at h
    cases h with
    | done h =>
        exact ⟨(h.toSexp_kept hsize).map, (h.toSexp_kept hsize).map⟩

/-- The document of a command is printed in both ways. -/
theorem parse_say_keeps_promises :
    "say hi".utf8ByteSize < offsetLimit ∧ ∃ document log next,
      Document.run .tolerant {} "say hi" = .done document log next ∧
        (∃ plain, document.sexpText = .ok plain) ∧
          ∃ ranged, document.sexpTextWithRanges "say hi" = .ok ranged := by
  have hsize : "say hi".utf8ByteSize < offsetLimit := by decide
  obtain ⟨document, log, next, hrun, -⟩ := Document.exists_run_tolerant "say hi" {}
  exact ⟨hsize, document, log, next, hrun,
    (parse_keeps_promises "say hi" {}).2.2 hsize .tolerant document log next hrun⟩

end Mcfunction
