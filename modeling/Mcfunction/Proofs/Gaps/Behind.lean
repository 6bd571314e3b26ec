import Mcfunction.Proofs.Gaps.Command
import Mcfunction.Proofs.Gaps.Relocate
import Mcfunction.Proofs.Lines.Document

/-!
# Runs behind a Gap

What a strict parse reads behind a gap stands there with another gap too, only at other offsets.
The text behind the gap is embedded in both texts, so the parse of it alone tells what both of
them do: where the first succeeds, so does the second, with the tree relocated.

## Main results

* `argumentWithin_behind`, `argumentList_behind`: arguments.
* `subcommand_behind`: the command of a run clause.
* `statements_behind`: the statements up to the end of the text.
-/

namespace Mcfunction

variable {seam : Seam} {s : Settings} {c d : Cursor} {room limit : Nat} {inMacro : Bool}

namespace Seam

/-- The place where the gap ends. -/
def right (seam : Seam) : Cursor :=
  ⟨seam.cut.offset + byteWidth seam.old, seam.after⟩

/-- Where an offset lies with the other gap: in front of the end of the gap it stays, and from there
on it moves with that end. -/
def offset (seam : Seam) (n : Nat) : Nat :=
  if n < seam.right.offset then n
  else n - seam.right.offset + (seam.cut.offset + byteWidth seam.new)

/-- A place behind the gap with the other gap in front of it. -/
def moved (seam : Seam) (c : Cursor) : Cursor :=
  ⟨seam.offset c.offset, c.rest⟩

/-- The place behind the gap that corresponds to one has the offset that corresponds to its own. -/
@[simp] theorem moved_offset (c : Cursor) : (seam.moved c).offset = seam.offset c.offset := rfl

/-- What stands behind the gap, in the text with the gap. -/
def oldText (seam : Seam) : Embedding :=
  ⟨⟨0, seam.after⟩, seam.right.offset, [], .nil⟩

/-- The same in the text with the other gap. -/
def newText (seam : Seam) : Embedding :=
  ⟨⟨0, seam.after⟩, seam.cut.offset + byteWidth seam.new, [], .nil⟩

/-- The gap is not empty. -/
theorem cut_offset_lt : seam.cut.offset < seam.right.offset := by
  have hlen := seam.interchangeable.old_separates.length_pos
  have hwidth := length_le_byteWidth seam.old
  rw [right]
  dsimp only
  omega

/-- Offsets in front of the gap keep their values. -/
theorem offset_of_le {n : Nat} (h : n ≤ seam.cut.offset) : seam.offset n = n :=
  if_pos (h.trans_lt cut_offset_lt)

/-- The end of the gap becomes the end of the other gap. -/
theorem offset_right : seam.offset seam.right.offset = seam.cut.offset + byteWidth seam.new := by
  rw [offset, if_neg (lt_irrefl _), Nat.sub_self, Nat.zero_add]

/-- Behind the gap all offsets move alike. -/
theorem offset_add (n : Nat) :
    seam.offset (n + seam.oldText.bytes) = n + seam.newText.bytes := by
  rw [offset, if_neg (by simp [oldText])]
  simp [oldText, newText]

/-- A place behind the gap is one of the text there. -/
theorem exists_eq_place (h : seam.right ≤ c) : ∃ d, seam.oldText.start ≤ d ∧
    c = seam.oldText.place d ∧ seam.moved c = seam.newText.place d ∧ d.rest = c.rest := by
  obtain ⟨chars, hrest, hoffset⟩ := h
  have hrest' : seam.after = chars ++ c.rest := hrest
  have hc : c.offset = byteWidth chars + seam.oldText.bytes := by
    rw [hoffset, Nat.add_comm]
    rfl
  refine ⟨⟨byteWidth chars, c.rest⟩, ⟨chars, hrest', (Nat.zero_add _).symm⟩, ?_, ?_, rfl⟩
  · rw [Embedding.place, ← hc]
    simp [oldText]
  · rw [Embedding.place, moved, hc, offset_add]
    simp [newText]

/-- Places of the text behind the gap move with it. -/
theorem moved_place (c : Cursor) :
    seam.moved (seam.oldText.place c) = seam.newText.place c := by
  rw [moved, Embedding.place, offset_add]
  rfl

/-- The text behind the gap stands behind the gap. -/
theorem right_le_place (h : seam.oldText.start ≤ c) : seam.right ≤ seam.oldText.place c := by
  obtain ⟨chars, hrest, hoffset⟩ := h
  have hrest' : seam.after = chars ++ c.rest := hrest
  refine ⟨chars, ?_, ?_⟩
  · change seam.after = chars ++ (c.rest ++ [])
    rw [List.append_nil, hrest']
  · change c.offset + seam.right.offset = seam.right.offset + byteWidth chars
    have : c.offset = 0 + byteWidth chars := hoffset
    omega

/-- The trivia of the gap end with it. -/
theorem skipTrivia_cut : seam.cut.skipTrivia = seam.right := by
  have hlen : seam.old.length ≤ seam.cut.rest.length := by
    rw [seam.rest_eq, List.length_append]
    omega
  have hoffset := Cursor.advance_offset hlen
  have hrest : (seam.cut.advance seam.old.length).rest = seam.after := by
    rw [Cursor.advance_rest, seam.rest_eq, List.drop_left]
  rw [seam.rest_eq, List.take_left] at hoffset
  rw [Cursor.skipTrivia, seam.rest_eq, seam.interchangeable.old_separates.trivia_eq, right,
    ← hoffset, ← hrest]

/-- Where the gap starts, the other gap stands instead. -/
theorem place_cut : seam.place seam.cut = ⟨seam.cut.offset, seam.new ++ seam.after⟩ := by
  rw [place, if_pos le_rfl, Nat.sub_self, List.take_zero, List.nil_append]

/-- The trivia there end where the text behind the gap stands. -/
theorem skipTrivia_place_cut : (seam.place seam.cut).skipTrivia = seam.moved seam.right := by
  have hlen : seam.new.length ≤ (seam.place seam.cut).rest.length := by
    rw [place_cut, List.length_append]
    omega
  have hoffset := Cursor.advance_offset hlen
  have hrest : ((seam.place seam.cut).advance seam.new.length).rest = seam.after := by
    rw [Cursor.advance_rest, place_cut, List.drop_left]
  have htake : (seam.place seam.cut).rest.take seam.new.length = seam.new := by
    rw [place_cut, List.take_left]
  rw [htake, place_offset] at hoffset
  rw [Cursor.skipTrivia, place_cut, seam.interchangeable.new_separates.trivia_eq, ← place_cut,
    moved, offset_right, ← hoffset]
  exact congrArg (Cursor.mk _) hrest

/-- Nothing behind a gap is glued to what is in front of it. -/
theorem glued_place_cut {afterError : Bool} :
    Parser.glued (seam.place seam.cut) afterError = false := by
  have hlen := seam.interchangeable.new_separates.length_pos
  have hwidth := length_le_byteWidth seam.new
  have hne : (seam.cut.offset + byteWidth seam.new == seam.cut.offset) = false := by
    rw [beq_eq_false_iff_ne]
    omega
  rw [Parser.glued, skipTrivia_place_cut, moved_offset, offset_right, place_offset, hne]
  rfl

end Seam

namespace Parser

variable {α : Type} [Shift α] [Relocate α]

/-- The runs of `p` behind the gap that succeed are those of `p'` with the other gap, relocated. -/
def Behind (seam : Seam) (s : Settings) (c : Cursor) (p p' : Parser α) : Prop :=
  ∀ value log d, p s c = .done value log d → seam.right ≤ d ∧
    ∃ log', p' s (seam.moved c) = .done (relocate seam.offset value) log' (seam.moved d)

/-- It is enough to compare both with the parse of the text behind the gap alone. -/
theorem Behind.of_copies {p q p' : Parser α} (hc : seam.right ≤ c)
    (h : ∀ d, seam.oldText.start ≤ d → d.rest = c.rest → (∀ fault, q s d ≠ .broken fault) ∧
      Copies seam.oldText s d q p ∧ Copies seam.newText s d q p') : Behind seam s c p p' := by
  intro value log d hrun
  obtain ⟨c₀, hstart, hold, hnew, hrest⟩ := Seam.exists_eq_place hc
  obtain ⟨hsound, hcopies, hcopies'⟩ := h c₀ hstart hrest
  rw [hnew]
  subst hold
  unfold Copies at hcopies
  cases hbase : q s c₀ with
  | done value₀ log₀ d₀ =>
      obtain ⟨-, hrun'⟩ := hcopies'.run_done hbase
      rw [hbase, hrun] at hcopies
      cases hcopies with
      | done hd =>
          refine ⟨Seam.right_le_place hd, shift seam.newText.bytes log₀, ?_⟩
          rw [hrun', relocate_shift Seam.offset_add, Seam.moved_place]
  | failed error log₀ =>
      rw [hbase, hrun] at hcopies
      cases hcopies
  | broken fault => exact absurd hbase (hsound fault)

omit [Shift α] [Relocate α] in
/-- A parser that reads what it should breaks no promise. -/
theorem Reads.ne_broken {origin : Cursor} {p : Parser α} {post : α → Cursor → Prop}
    (h : Reads limit origin c p post) (fault : Fault) : p ⟨limit, .strict⟩ c ≠ .broken fault := by
  intro hbroken
  have hsound := Outcome.Lockstep.sound_strict h
  rw [hbroken] at hsound
  cases hsound

/-- Corresponding functions on the values keep the correspondence behind the gap. -/
theorem Behind.map {β : Type} [Shift β] [Relocate β] {p p' : Parser α} {g : α → β}
    (hg : ∀ value, g (relocate seam.offset value) = relocate seam.offset (g value))
    (h : Behind seam s c p p') : Behind seam s c (g <$> p) (g <$> p') := by
  intro value log d hrun
  obtain ⟨first, hfirst, rfl⟩ := map_eq_done hrun
  obtain ⟨hd, log', hfirst'⟩ := h _ _ _ hfirst
  exact ⟨hd, log', hg first ▸ map_done hfirst'⟩

/-! ### Arguments and commands -/

/-- Arguments are copied, whatever room for nesting is left. -/
theorem argumentWithin_copies {e : Embedding} (hc : e.start ≤ c) (hne : c.rest ≠ []) :
    Copies e s c (argumentWithin room inMacro) (argumentWithin room inMacro) := by
  cases room with
  | zero => exact argument_copies (fun start d hstart hne _ =>
      wideningTooDeep_copies hstart (tooDeep_copies hne)) hc hne
  | succ room => exact argument_copies (fun start d hstart _ hd =>
      wideningTooDeep_copies hstart
        (runClause_copies (fun inMacro _ => arguments_copies room inMacro) inMacro hd)) hc hne

/-- Arguments behind the gap are relocated. -/
theorem argumentWithin_behind (hc : seam.right ≤ c) (hne : c.rest ≠ []) :
    Behind seam ⟨limit, .strict⟩ c (argumentWithin room inMacro)
      (argumentWithin room inMacro) :=
  .of_copies hc fun d hd hrest => ⟨(argumentWithin_reads room inMacro d).ne_broken,
    argumentWithin_copies hd (hrest ▸ hne), argumentWithin_copies hd (hrest ▸ hne)⟩

/-- Lists of arguments behind the gap are relocated, given enough fuel. -/
theorem argumentList_behind {afterError : Bool} {fuel fuel' : Nat} (hc : seam.right ≤ c)
    (hfuel : c.rest.length < fuel) (hfuel' : c.rest.length < fuel') :
    Behind seam ⟨limit, .strict⟩ c (argumentList (argumentWithin room inMacro) afterError fuel)
      (argumentList (argumentWithin room inMacro) afterError fuel') := by
  refine .of_copies (q := argumentList (argumentWithin room inMacro) afterError
    (c.rest.length + 1)) hc fun d hd hrest => ⟨?_, ?_, ?_⟩
  · exact (argumentList_reads (fun _ _ _ h => ArgumentWithin.placed h)
      (fun _ _ _ => isPlaceholder_eq_false) (argumentWithin_reads room inMacro) le_rfl
      (hrest ▸ Nat.lt_succ_self _)).ne_broken
  · exact argumentList_copies (fun _ hc hne => argumentWithin_copies hc hne) hd hfuel
  · exact argumentList_copies (fun _ hc hne => argumentWithin_copies hc hne) hd hfuel'

/-- Commands behind the gap are relocated. -/
theorem command_behind (hc : seam.right ≤ c) :
    Behind seam ⟨limit, .strict⟩ c (command (arguments room inMacro))
      (command (arguments room inMacro)) :=
  .of_copies hc fun d hd _ =>
    ⟨(command_reads (ArgumentsAt.argumentsPlaced room) (arguments_reads room) inMacro d).ne_broken,
      command_copies (fun inMacro _ => arguments_copies room inMacro) inMacro hd,
      command_copies (fun inMacro _ => arguments_copies room inMacro) inMacro hd⟩

/-- Macro commands behind the gap are relocated. -/
theorem macroCommand_behind (hc : seam.right ≤ c) (hdollar : c.peek = some '$') :
    Behind seam ⟨limit, .strict⟩ c (macroCommand (arguments room inMacro))
      (macroCommand (arguments room inMacro)) :=
  .of_copies hc fun d hd hrest =>
    have hdollar' : d.peek = some '$' := by rw [Cursor.peek, hrest, ← Cursor.peek, hdollar]
    ⟨(macroCommand_reads (ArgumentsAt.argumentsPlaced room) (arguments_reads room) inMacro
        hdollar').ne_broken,
      macroCommand_copies (fun inMacro _ => arguments_copies room inMacro) inMacro hdollar' hd,
      macroCommand_copies (fun inMacro _ => arguments_copies room inMacro) inMacro hdollar' hd⟩

/-- The subcommand of a relocated command is the relocated subcommand. -/
theorem subcommandOf_relocate (f : Nat → Nat) (command : Command) :
    subcommandOf (relocate f command) = relocate f (subcommandOf command) := by
  obtain ⟨name, arguments, span⟩ := command
  have hany : (Argument.allRelocated f arguments).any isInterpolated =
      arguments.any isInterpolated := by
    rw [Argument.allRelocated_eq]
    refine List.any_map.trans (List.any_congr rfl fun argument => ?_)
    cases argument <;> rfl
  change subcommandOf ⟨_, Argument.allRelocated f arguments, _⟩ = _
  simp only [subcommandOf, hany]
  split <;> rfl

/-- What follows a `run` and trivia. -/
def subcommand (room : Nat) (inMacro : Bool) : Parser Subcommand := do
  if (← here).peek == some '$' then Subcommand.macroCommand <$> macroCommand (arguments room true)
  else subcommandOf <$> command (arguments room inMacro)

/-- Subcommands behind the gap are relocated. -/
theorem subcommand_behind (hc : seam.right ≤ c) :
    Behind seam ⟨limit, .strict⟩ c (subcommand room inMacro) (subcommand room inMacro) := by
  intro value log d hrun
  have hpeek : (seam.moved c).peek = c.peek := rfl
  rw [subcommand, bind_done here_run] at hrun ⊢
  rw [hpeek]
  split at hrun
  · rename_i hdollar
    rw [if_pos hdollar]
    have hcommand : Behind seam ⟨limit, .strict⟩ c
        (Subcommand.macroCommand <$> macroCommand (arguments room true))
        (Subcommand.macroCommand <$> macroCommand (arguments room true)) :=
      (macroCommand_behind hc (beq_iff_eq.mp hdollar)).map fun _ => rfl
    exact hcommand _ _ _ hrun
  · rename_i hdollar
    rw [if_neg hdollar]
    exact (command_behind hc).map (subcommandOf_relocate seam.offset) _ _ _ hrun

/-! ### Statements -/

/-- Where nothing follows the text, more fuel than it needs changes nothing. -/
theorem statements_copies {e : Embedding} {arguments arguments' : Bool → Parser (List Argument)}
    {fuel fuel' : Nat} (htail : e.tail = [])
    (harguments : ∀ inMacro c, e.start ≤ c → Copies e s c (arguments inMacro) (arguments' inMacro))
    (hc : e.start ≤ c) (hfuel : fuel ≤ fuel') :
    Copies e s c (statements arguments fuel) (statements arguments' fuel') := by
  induction fuel generalizing c fuel' with
  | zero => exact .breakOff _
  | succ fuel ih =>
      obtain ⟨fuel', rfl⟩ : ∃ k, fuel' = k + 1 := ⟨fuel' - 1, by omega⟩
      have hstart := hc.trans c.le_skipTrivia
      have hpeek : (e.place c.skipTrivia).peek = c.skipTrivia.peek := by
        simp [Cursor.peek, Embedding.place, htail]
      rw [statements, statements, copies_skipTrivia_bind hc, copies_here_bind, hpeek]
      rcases hfirst : c.skipTrivia.peek with _ | x
      · exact .pure [] hstart
      · have hone : 1 ≤ c.skipTrivia.rest.length := Cursor.length_pos_of_peek hfirst
        split
        · cases ‹some x = none›
        · rw [copies_take_bind hone]
          exact ih (hstart.trans (Cursor.le_advance hone)) (by omega)
        · exact (anyStatement_copies harguments (List.length_pos_iff.mp hone) hstart).bind
            fun first d hd => (ih hd (by omega)).bind fun more d hd => .pure (first :: more) hd

/-- Statements behind the gap are relocated, given enough fuel. -/
theorem statements_behind {fuel fuel' : Nat} (hc : seam.right ≤ c)
    (hfuel : c.rest.length < fuel) (hfuel' : c.rest.length < fuel') :
    Behind seam ⟨limit, .strict⟩ c (statements (arguments room) fuel)
      (statements (arguments room) fuel') := by
  refine .of_copies (q := statements (arguments room) (c.rest.length + 1)) hc
    fun d hd hrest => ⟨?_, ?_, ?_⟩
  · exact (statements_reads (ArgumentsAt.argumentsPlaced room) (arguments_reads room) le_rfl
      (hrest ▸ Nat.lt_succ_self _)).ne_broken
  · exact statements_copies rfl (fun inMacro _ => arguments_copies room inMacro) hd hfuel
  · exact statements_copies rfl (fun inMacro _ => arguments_copies room inMacro) hd hfuel'

end Parser

end Mcfunction
