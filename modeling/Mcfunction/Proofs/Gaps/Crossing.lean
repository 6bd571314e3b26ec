import Mcfunction.Proofs.Gaps.Behind
import Mcfunction.Proofs.Gaps.Places

/-!
# Runs across a Gap

A strict parse that reads a tree with a gap in it reads the same tree with another gap there, only
that the offsets behind the gap have moved. A loop reaches the gap in some turn: the turns before
it are in front of the gap, the turns after it behind, and in that turn the gap stands before an
argument or in it.

`Parser.Crosses` says so of a parser. It also says that the run starts in front of the gap, which
the spans of the tree tell.

## Main results

* `argumentList_crosses`: a list of arguments, if each of them can be crossed.
* `arguments_crosses`: the arguments of a command, with any number of levels left.
-/

namespace Mcfunction

variable {seam : Seam} {s : Settings} {origin c d : Cursor} {n room limit : Nat} {inMacro : Bool}

namespace Seam

/-- The span of the gap. -/
def gap (seam : Seam) : Span :=
  seam.cut.spanTo seam.right

/-- A place of the text with the offset of the seam is the seam. -/
theorem eq_cut (hcut : origin ≤ seam.cut) (hc : origin ≤ c)
    (hoffset : c.offset = seam.cut.offset) : c = seam.cut :=
  le_antisymm (Cursor.le_of_offset_le hc hcut hoffset.le)
    (Cursor.le_of_offset_le hcut hc hoffset.ge)

/-- The span of a node around the gap becomes that of the node around the other gap. -/
theorem relocate_spanTo (hc : c ≤ seam.cut) :
    relocate seam.offset (c.spanTo d) = (seam.place c).spanTo (seam.moved d) := by
  have hoffset := offset_of_le (Cursor.offset_le_of_le hc)
  change Span.mk (seam.offset c.offset) (seam.offset d.offset) = _
  rw [hoffset, Cursor.spanTo, place_offset, moved_offset]

/-- An outline in front of the seam keeps its offsets. -/
theorem fixed {outline : Outline} (h : outline.At c d) (hd : d ≤ seam.cut) :
    outline.Fixed seam.offset :=
  h.fixed fun _ hn => offset_of_le (hn.trans (Cursor.offset_le_of_le hd))

/-- What is left behind the gap is less than what was left in front of it. -/
theorem length_lt_of_right_le (hc : c ≤ seam.cut) (hd : seam.right ≤ d) :
    d.rest.length < (seam.place c).rest.length := by
  obtain ⟨chars, -, hplace⟩ := exists_before hc
  have hlen : d.rest.length ≤ seam.after.length := Cursor.length_le_of_le hd
  have hnew := seam.interchangeable.new_separates.length_pos
  rw [hplace, List.length_append, List.length_append]
  omega

/-- A character that starts no gap stands in the same place. -/
theorem place_peek_eq_some {x : Char} (hpeek : c.peek = some x)
    (hx : Scan.isGapChar x = false) : (seam.place c).peek = some x := by
  have hsame := seam.place_peek_beq (c := c) hx
  rw [hpeek, beq_self_eq_true] at hsame
  exact beq_iff_eq.mp hsame

end Seam

namespace Parser

/-- The runs of `p` that succeed and give something with the gap in it start in front of the gap,
end behind it and are those of `p'` with the other gap, relocated. -/
def Crosses {α : Type} [Shift α] [Relocate α] (seam : Seam) (s : Settings) (c : Cursor)
    (p p' : Parser α) (holds : α → Prop) : Prop :=
  ∀ value log d, p s c = .done value log d → holds value → c ≤ seam.cut ∧ seam.right ≤ d ∧
    ∃ log', p' s (seam.place c) = .done (relocate seam.offset value) log' (seam.moved d)

section

variable {α : Type} [Shift α] [Relocate α] {p p' : Parser α} {holds : α → Prop}

/-- The runs of the arguments of commands from a place on, with a gap in front of an argument or in
it. -/
def ArgumentsCross (seam : Seam) (limit room : Nat) (origin : Cursor) : Prop :=
  ∀ inMacro c, origin ≤ c → Crosses seam ⟨limit, .strict⟩ c (arguments room inMacro)
    (arguments room inMacro) fun args => seam.gap ∈ Argument.gapsAfter c.offset args

/-- What never succeeds crosses no gap. -/
theorem Crosses.of_never (h : Returns p fun _ => False) : Crosses seam s c p p' holds :=
  fun _ _ _ hrun => (h _ _ _ _ _ hrun).elim

theorem Crosses.of_here_bind {f : Cursor → Parser α} (h : Crosses seam s c (f c) p' holds) :
    Crosses seam s c (here >>= f) p' holds := by
  intro value log d hrun
  rw [bind_done here_run] at hrun
  exact h _ _ _ hrun

/-- A loop over the rest of the text has a turn left in front of the gap. -/
theorem Crosses.of_turn {f : Nat → Parser α} {fuel : Nat}
    (hfuel : c ≤ seam.cut → (seam.place c).rest.length < fuel)
    (h : ∀ k, (c ≤ seam.cut → fuel = k + 1) → Crosses seam s c p (f (k + 1)) holds) :
    Crosses seam s c p (f fuel) holds := by
  by_cases hc : c ≤ seam.cut
  · obtain ⟨k, rfl⟩ : ∃ k, fuel = k + 1 := ⟨fuel - 1, by have := hfuel hc; omega⟩
    exact h k fun _ => rfl
  · intro value log d hrun hholds
    exact absurd (h 0 (fun hle => absurd hle hc) _ _ _ hrun hholds).1 hc

end

/-! ### Lists of arguments -/

theorem isPlaceholder_relocate (f : Nat → Nat) (argument : Argument) :
    isPlaceholder (relocate f argument) = isPlaceholder argument := by
  cases argument <;> rfl

/-- An argument in front of the seam stays as it is. -/
theorem argumentWithin_relocate {value : Argument} {log : List Event}
    (hrun : argumentWithin room inMacro ⟨limit, .strict⟩ c = .done value log d)
    (hd : d ≤ seam.cut) : relocate seam.offset value = value := by
  have hread := (argumentWithin_reads room inMacro c).post_of_run hrun
  have hoffset : value.outline.At c d := by
    cases room with
    | zero => exact ArgumentAt.outlined (ArgumentWithin.placed hread) (fun h => h.elim) hread
    | succ room =>
        exact ArgumentAt.outlined (ArgumentWithin.placed hread)
          (fun h hlt => h.outlined (ArgumentsAt.outlined room) hlt.le) hread
  exact value.relocated_eq_self (Seam.fixed hoffset hd)

section Lists

variable (hcut : origin ≤ seam.cut)

include hcut

/-- Lists of arguments cross the gap if each argument with the gap in it does. -/
theorem argumentList_crosses
    (hargument : ∀ c, origin ≤ c → Crosses seam ⟨limit, .strict⟩ c (argumentWithin room inMacro)
      (argumentWithin room inMacro) fun value => seam.gap ∈ value.gaps)
    {afterError : Bool} {fuel fuel' : Nat} (hc : origin ≤ c) (hfuel : c.rest.length < fuel)
    (hfuel' : c ≤ seam.cut → (seam.place c).rest.length < fuel') :
    Crosses seam ⟨limit, .strict⟩ c (argumentList (argumentWithin room inMacro) afterError fuel)
      (argumentList (argumentWithin room inMacro) afterError fuel')
      fun args => seam.gap ∈ Argument.gapsAfter c.offset args := by
  induction fuel generalizing c fuel' afterError with
  | zero => exact absurd hfuel (Nat.not_lt_zero _)
  | succ fuel ih =>
      refine .of_turn hfuel' fun k hk => ?_
      intro args log e hrun hgap
      have hsame := seam.place_skipTrivia_atLineEnd c
      rcases hline : Scan.atLineEnd c.skipTrivia.rest with _ | _
      · obtain ⟨first, earlier, d, more, later, hglued, hfirst, hmore, rfl⟩ :=
          argumentList_eq_done_cons rfl hline hrun
        have hplaced := argumentWithin_placed hfirst
        have hlt := Cursor.length_lt_of_lt (c.le_skipTrivia.trans_lt hplaced.lt)
        have hstop : first.span.stop = d.offset := by rw [hplaced.span_eq]; rfl
        have hplaceholder : ∀ {value : Argument}, isPlaceholder value = isPlaceholder first →
            isPlaceholder value = false := fun h => h.trans <|
              isPlaceholder_eq_false ((argumentWithin_reads room inMacro _).post_of_run hfirst)
        rw [hplaceholder rfl] at hmore
        rw [hline] at hsame
        rcases Argument.mem_gapsAfter_cons.mp hgap with hhere | hinside | hlater
        · -- the gap stands before this argument
          obtain rfl : c = seam.cut :=
            Seam.eq_cut hcut hc (congrArg Span.start hhere).symm
          have hleft := hk le_rfl ▸ hfuel' le_rfl
          have hskip : (seam.place seam.cut).skipTrivia = _ := Seam.skipTrivia_place_cut
          have hrest : seam.right.rest ≠ [] := by
            rw [Seam.skipTrivia_cut] at hline
            exact ne_nil_of_not_atLineEnd hline
          rw [Seam.skipTrivia_cut] at hfirst
          obtain ⟨hd, log', hfirst'⟩ := argumentWithin_behind le_rfl hrest _ _ _ hfirst
          have hlen := Seam.length_lt_of_right_le le_rfl hd
          obtain ⟨he, log'', hmore'⟩ :=
            argumentList_behind hd (by omega) (by omega : _ < k) _ _ _ hmore
          exact ⟨le_rfl, he, exists_argumentList_cons hsame Seam.glued_place_cut (hskip ▸ hfirst')
            (hplaceholder (isPlaceholder_relocate _ _)) hmore'⟩
        · -- the gap stands in this argument
          obtain ⟨hstart, hd, log', hfirst'⟩ := hargument _ (hc.trans c.le_skipTrivia) _ _ _ hfirst
            hinside
          have hcc := c.le_skipTrivia.trans hstart
          have hleft := hk hcc ▸ hfuel' hcc
          have hlen := Seam.length_lt_of_right_le hcc hd
          obtain ⟨he, log'', hmore'⟩ :=
            argumentList_behind hd (by omega) (by omega : _ < k) _ _ _ hmore
          exact ⟨hcc, he, exists_argumentList_cons hsame ((Seam.place_glued hstart).trans hglued)
            (Seam.place_skipTrivia hstart ▸ hfirst')
            (hplaceholder (isPlaceholder_relocate _ _)) hmore'⟩
        · -- the gap stands behind this argument
          have hcd := c.le_skipTrivia.trans_lt hplaced.lt
          have hless := Seam.length_place_lt_of_turn hfuel' hk hcd
          obtain ⟨hd, he, log', hmore'⟩ :=
            ih (hc.trans hcd.le) (by omega) hless _ _ _ hmore (hstop ▸ hlater)
          have hstart := hplaced.le.trans hd
          obtain ⟨log'', hfirst'⟩ := (argumentWithin_local room inMacro _ _ _ _ hfirst).2 hd
          refine ⟨hcd.le.trans hd, he, ?_⟩
          rw [relocate_cons, argumentWithin_relocate hfirst hd]
          exact exists_argumentList_cons hsame ((Seam.place_glued hstart).trans hglued)
            (Seam.place_skipTrivia hstart ▸ hfirst') (hplaceholder rfl) hmore'
      · rw [argumentList_run_nil hline] at hrun
        cases hrun
        cases hgap

end Lists

/-! ### Commands -/

theorem arguments_run (c : Cursor) : arguments room inMacro s c =
    argumentList (argumentWithin room inMacro) false (c.rest.length + 1) s c := by
  rw [arguments_eq, bind_done here_run]

/-- In a strict parse a command is its name and its arguments. -/
theorem command_run (hname : Scan.commandName c.rest = some n) :
    command (arguments room inMacro) ⟨limit, .strict⟩ c =
      (arguments room inMacro ⟨limit, .strict⟩ (c.advance n)).andThen fun args d =>
        .done ⟨c.textRun n, args, c.spanTo d⟩ [] d := by
  have hlen := (Scan.inline_commandName hname).le_length
  have hplaced := ArgumentsAt.argumentsPlaced room inMacro
  rw [command, bind_done here_run, bind_done (commandName_run hname), bind_run]
  cases hargs : arguments room inMacro ⟨limit, .strict⟩ (c.advance n) with
  | done args log d =>
      have hread := (arguments_reads room inMacro _).post_of_run hargs
      have hoffset := Cursor.offset_le_of_le ((Cursor.le_advance hlen).trans
        (hplaced.within hread).le)
      rw [Outcome.andThen_done, Outcome.andThen_done,
        bind_done (commandEnd_run hplaced hread hoffset), bind_done (span_run hoffset)]
      rfl
  | failed error log => rfl
  | broken fault => rfl

/-- So is a macro command. -/
theorem macroCommand_run (hdollar : c.peek = some '$') :
    macroCommand (arguments room inMacro) ⟨limit, .strict⟩ c =
      (macroName ⟨limit, .strict⟩ (c.advance 1).skipTrivia).andThen fun name e =>
        (arguments room inMacro ⟨limit, .strict⟩ e).andThen fun args d =>
          .done ⟨name, args, c.spanTo d⟩ [] d := by
  have hone := Cursor.length_pos_of_peek hdollar
  have hplaced := ArgumentsAt.argumentsPlaced room inMacro
  rw [macroCommand, bind_done here_run, bind_done (take_run hone), bind_done skipTrivia_run,
    bind_run]
  cases hname : macroName ⟨limit, .strict⟩ (c.advance 1).skipTrivia with
  | done name log e =>
      have hnamed := ((macroName_steady _).post_of_run hname).placed
      rw [Outcome.andThen_done, Outcome.andThen_done, bind_run]
      cases hargs : arguments room inMacro ⟨limit, .strict⟩ e with
      | done args log d =>
          have hread := (arguments_reads room inMacro _).post_of_run hargs
          have hed := (hplaced.within hread).le
          have hce := ((Cursor.le_advance hone).trans (Cursor.le_skipTrivia _)).trans hnamed.le
          have hstart : name.span.start = (c.advance 1).skipTrivia.offset := by
            rw [hnamed.span_eq]
            rfl
          rw [Outcome.andThen_done, Outcome.andThen_done, hstart,
            bind_done (commandEnd_run hplaced hread (Cursor.offset_le_of_le
              (hnamed.le.trans hed))),
            bind_done (span_run (Cursor.offset_le_of_le (hce.trans hed)))]
          rfl
      | failed error log => rfl
      | broken fault => rfl
  | failed error log => rfl
  | broken fault => rfl

section Commands

variable (harguments : ArgumentsCross seam limit room origin)

include harguments

/-- Commands with the gap in them cross it. -/
theorem command_crosses (hc : origin ≤ c) :
    Crosses seam ⟨limit, .strict⟩ c (command (arguments room inMacro))
      (command (arguments room inMacro)) fun command => seam.gap ∈ command.gaps := by
  intro value log d hrun hgap
  obtain ⟨n, hname⟩ : ∃ n, Scan.commandName c.rest = some n := by
    obtain ⟨hname, -⟩ := (command_reads (ArgumentsAt.argumentsPlaced room) (arguments_reads room)
      inMacro c).post_of_run hrun
    exact ⟨_, hname⟩
  have hline := Scan.inline_commandName hname
  have hnext := Cursor.le_advance hline.le_length
  rw [command_run hname] at hrun
  obtain ⟨args, _, _, _, hargs, hend, -⟩ := Outcome.andThen_eq_done hrun
  cases hend
  obtain ⟨hcut, hd, log', hargs'⟩ := harguments inMacro _ (hc.trans hnext) _ _ _ hargs hgap
  have hleaf : (Outline.leaf (c.textRun n).span).At c (c.advance n) :=
    .leaf (.inline (Scan.commandName_pos hname) hline)
  have hfixed := TextRun.relocate_eq_self (Seam.fixed hleaf hcut)
  refine ⟨hnext.trans hcut, hd, log' ++ [], ?_⟩
  rw [command_run ((Seam.place_commandName c).trans hname),
    Seam.place_advance hline.le_length hcut, hargs', Outcome.andThen_done,
    Seam.place_textRun hline.le_length hcut, ← Seam.relocate_spanTo (hnext.trans hcut)]
  change _ = Outcome.done (Command.mk (relocate _ _) (Argument.allRelocated _ _) _) _ _
  rw [hfixed, Argument.allRelocated_eq]
  rfl

/-- Macro commands with the gap in them cross it. -/
theorem macroCommand_crosses (hc : origin ≤ c) (hdollar : c.peek = some '$') :
    Crosses seam ⟨limit, .strict⟩ c (macroCommand (arguments room inMacro))
      (macroCommand (arguments room inMacro)) fun command => seam.gap ∈ command.gaps := by
  intro value log d hrun hgap
  have hone := Cursor.length_pos_of_peek hdollar
  have hskip := (Cursor.le_advance hone).trans (Cursor.le_skipTrivia _)
  rw [macroCommand_run hdollar] at hrun
  obtain ⟨name, _, e, _, hname, hrest, -⟩ := Outcome.andThen_eq_done hrun
  obtain ⟨args, _, _, _, hargs, hend, -⟩ := Outcome.andThen_eq_done hrest
  cases hend
  have hplaced := ((macroName_steady _).post_of_run hname).placed
  have hstop : name.span.stop = e.offset := by rw [hplaced.span_eq]; rfl
  have hce := hskip.trans hplaced.le
  obtain ⟨hcut, hd, log', hargs'⟩ := harguments inMacro e (hc.trans hce) _ _ _ hargs
    (hstop ▸ hgap)
  obtain ⟨log'', hname'⟩ := (macroName_local _ _ _ hname).2 hcut
  have hfixed := MacroName.relocate_eq_self (Seam.fixed (.leaf hplaced) hcut)
  refine ⟨hce.trans hcut, hd, log'' ++ (log' ++ []), ?_⟩
  rw [macroCommand_run (Seam.place_peek_eq_some hdollar (by decide)),
    Seam.place_advance_one hdollar (by decide), Seam.place_skipTrivia (hplaced.le.trans hcut),
    hname', Outcome.andThen_done, hargs', Outcome.andThen_done,
    ← Seam.relocate_spanTo (hce.trans hcut)]
  change _ = Outcome.done (MacroCommand.mk (relocate _ _) (Argument.allRelocated _ _) _) _ _
  rw [hfixed, Argument.allRelocated_eq]
  rfl

/-- The command of a run clause. -/
theorem subcommand_crosses (hc : origin ≤ c) :
    Crosses seam ⟨limit, .strict⟩ c (subcommand room inMacro) (subcommand room inMacro)
      fun command => seam.gap ∈ command.gaps := by
  intro value log d hrun hgap
  rw [subcommand, bind_done here_run] at hrun ⊢
  rw [Seam.place_peek_beq (by decide)]
  split at hrun
  · rename_i hdollar
    rw [if_pos hdollar]
    obtain ⟨command, hcommand, rfl⟩ := map_eq_done hrun
    obtain ⟨hcut, hd, log', hcommand'⟩ :=
      macroCommand_crosses harguments hc (beq_iff_eq.mp hdollar) _ _ _ hcommand hgap
    exact ⟨hcut, hd, log', map_done hcommand'⟩
  · rename_i hdollar
    rw [if_neg hdollar]
    obtain ⟨command, hcommand, rfl⟩ := map_eq_done hrun
    rw [subcommandOf_gaps] at hgap
    obtain ⟨hcut, hd, log', hcommand'⟩ := command_crosses harguments hc _ _ _ hcommand hgap
    rw [← subcommandOf_relocate]
    exact ⟨hcut, hd, log', map_done hcommand'⟩

end Commands

/-! ### Run clauses -/

/-- Where the command of a run clause ends. -/
theorem subcommand_stop {value : Subcommand} {log : List Event}
    (hrun : subcommand room inMacro ⟨limit, .strict⟩ c = .done value log d) :
    c ≤ d ∧ value.span.stop = d.offset := by
  have hplaced := ArgumentsAt.argumentsPlaced room
  rw [subcommand, bind_done here_run] at hrun
  split at hrun
  · rename_i hdollar
    obtain ⟨command, hcommand, rfl⟩ := map_eq_done hrun
    have hread := ((macroCommand_reads hplaced (arguments_reads room) true
      (beq_iff_eq.mp hdollar)).post_of_run hcommand).placed (hplaced true)
    exact ⟨hread.le, congrArg Span.stop hread.span_eq⟩
  · obtain ⟨command, hcommand, rfl⟩ := map_eq_done hrun
    have hread := ((command_reads hplaced (arguments_reads room) inMacro c).post_of_run
      hcommand).placed (hplaced inMacro)
    rw [subcommandOf_span]
    exact ⟨hread.le, congrArg Span.stop hread.span_eq⟩

/-- In a strict parse a run clause reaches from its `run` to the end of its command. -/
theorem runClause_run {start : Cursor} (hstart : start ≤ c) :
    runClause (arguments room) inMacro start ⟨limit, .strict⟩ c =
      (subcommand room inMacro ⟨limit, .strict⟩ c.skipTrivia).andThen fun command d =>
        .done ⟨command, start.spanTo d⟩ [] d := by
  have hsame : runClause (arguments room) inMacro start ⟨limit, .strict⟩ c =
      (subcommand room inMacro >>= fun command => do
        return (⟨command, ← span start.offset command.span.stop⟩ : RunClause))
          ⟨limit, .strict⟩ c.skipTrivia := by
    rw [runClause, bind_done skipTrivia_run, bind_done here_run, bind_run, subcommand,
      bind_done here_run]
    split <;> rfl
  rw [hsame, bind_run]
  cases hcommand : subcommand room inMacro ⟨limit, .strict⟩ c.skipTrivia with
  | done command log d =>
      obtain ⟨hd, hstop⟩ := subcommand_stop hcommand
      have hoffset := Cursor.offset_le_of_le ((hstart.trans c.le_skipTrivia).trans hd)
      rw [Outcome.andThen_done, Outcome.andThen_done, hstop, bind_done (span_run hoffset)]
      rfl
  | failed error log => rfl
  | broken fault => rfl

section RunClauses

variable (hcut : origin ≤ seam.cut)
  (harguments : ArgumentsCross seam limit room origin)

include hcut harguments

/-- What follows a `run` of three bytes. -/
theorem runClause_crosses {start : Cursor} (hc : origin ≤ c) (hstart : start ≤ c)
    (hoffset : c.offset = start.offset + 3) :
    Crosses seam ⟨limit, .strict⟩ c (runClause (arguments room) inMacro start)
      (runClause (arguments room) inMacro (seam.place start))
      fun clause => seam.gap ∈ clause.gaps := by
  intro value log d hrun hgap
  rw [runClause_run hstart] at hrun
  obtain ⟨command, _, _, _, hcommand, hend, -⟩ := Outcome.andThen_eq_done hrun
  cases hend
  have hfinish : ∀ {e : Cursor} {log' : List Event}, c ≤ seam.cut →
      (seam.place c).skipTrivia = e → subcommand room inMacro ⟨limit, .strict⟩ e =
        .done (relocate seam.offset command) log' (seam.moved d) →
      ∃ log', runClause (arguments room) inMacro (seam.place start) ⟨limit, .strict⟩
        (seam.place c) = .done (relocate seam.offset ⟨command, start.spanTo d⟩) log'
          (seam.moved d) := by
    rintro e log' hc rfl hcommand'
    refine ⟨log' ++ [], ?_⟩
    rw [runClause_run (Seam.place_le hstart hc), hcommand', Outcome.andThen_done,
      ← Seam.relocate_spanTo (hstart.trans hc)]
    rfl
  rcases List.mem_cons.mp hgap with hhere | hinside
  · -- the gap stands after the `run`
    obtain rfl : c = seam.cut :=
      Seam.eq_cut hcut hc (hoffset.trans (congrArg Span.start hhere).symm)
    rw [Seam.skipTrivia_cut] at hcommand
    obtain ⟨hd, log', hcommand'⟩ := subcommand_behind le_rfl _ _ _ hcommand
    exact ⟨le_rfl, hd, hfinish le_rfl Seam.skipTrivia_place_cut hcommand'⟩
  · obtain ⟨hnext, hd, log', hcommand'⟩ := subcommand_crosses harguments
      (hc.trans c.le_skipTrivia) _ _ _ hcommand hinside
    have hcc := c.le_skipTrivia.trans hnext
    exact ⟨hcc, hd, hfinish hcc (Seam.place_skipTrivia hnext) hcommand'⟩

end RunClauses

/-- A `run` in front of a gap starts nothing else. -/
theorem scan_run_word {y : Char} {chars : List Char} (hy : Scan.isGapChar y) :
    Scan.startsInterpolated false ('r' :: 'u' :: 'n' :: y :: chars) = false ∧
      (Scan.coordinates ('r' :: 'u' :: 'n' :: y :: chars)).isSome = false ∧
      Scan.resourceNamespace ('r' :: 'u' :: 'n' :: y :: chars) = none ∧
      Scan.wholeNumber ('r' :: 'u' :: 'n' :: y :: chars) = none ∧
      startsPathSuffix (y :: chars) = false := by
  rcases Scan.isGapChar_iff.mp hy with rfl | rfl | rfl | rfl <;> exact ⟨rfl, rfl, rfl, rfl, rfl⟩

/-- The word `run` with a command after it is a run clause. -/
theorem argument_run {inside : Containers} {run : Cursor → Parser RunClause}
    (hword : Scan.word c.rest = some n) (htext : c.textBetween 0 n = "run")
    (hsub : startsSubcommand (c.rest.drop n)) :
    argument inside run inMacro s c = (Argument.run <$> run c) s (c.advance n) := by
  have hlen := (Scan.inline_word hword).le_length
  obtain ⟨y, chars, hdrop, hy⟩ : ∃ y chars, c.rest.drop n = y :: chars ∧ Scan.isGapChar y := by
    rcases hdrop : c.rest.drop n with _ | ⟨y, chars⟩
    · rw [hdrop] at hsub
      cases hsub
    · refine ⟨y, chars, rfl, ?_⟩
      by_contra hy
      simp only [Scan.isGapChar, Bool.or_eq_true, not_or, Bool.not_eq_true, beq_eq_false_iff_ne]
        at hy
      rw [hdrop, startsSubcommand, Scan.trivia_cons_eq_zero hy.1 hy.2] at hsub
      cases hsub
  have hrest : c.rest = 'r' :: 'u' :: 'n' :: y :: chars := by
    rw [← List.take_append_drop n c.rest, Cursor.take_of_run htext, hdrop]
    rfl
  obtain ⟨hinterpolated, hcoordinates, hspace, hnumber, hsuffix⟩ :=
    @scan_run_word y chars hy
  rw [← hrest] at hinterpolated hcoordinates hspace hnumber
  have hplain : argument inside run inMacro s c = plainArgument inside run s c := by
    rw [argument, bind_done here_run, hinterpolated, if_neg Bool.false_ne_true,
      Cursor.peek_of_cons hrest]
    rfl
  have hbare : plainArgument inside run s c = wordArgument inside run n s c := by
    rw [plainArgument, bind_done here_run, hcoordinates, if_neg Bool.false_ne_true, hspace,
      hnumber, hword]
  have htext' : (c.textRun n).text = "run" := htext
  rw [← hdrop] at hsuffix
  rw [hplain, hbare, wordArgument, bind_done here_run, hsuffix, if_neg Bool.false_ne_true,
    bind_done (textRun_run hlen), htext', if_pos hsub]
  rfl

section Levels

variable (hcut : origin ≤ seam.cut)

include hcut

/-- The arguments of a command, given one argument. -/
theorem Crosses.arguments
    (h : ∀ c, origin ≤ c → Crosses seam ⟨limit, .strict⟩ c (argumentWithin room inMacro)
      (argumentWithin room inMacro) fun value => seam.gap ∈ value.gaps) (hc : origin ≤ c) :
    Crosses seam ⟨limit, .strict⟩ c (arguments room inMacro) (arguments room inMacro)
      fun args => seam.gap ∈ Argument.gapsAfter c.offset args := by
  intro args log d hrun hgap
  rw [arguments_run] at hrun ⊢
  exact argumentList_crosses hcut h hc (Nat.lt_succ_self _) (fun _ => Nat.lt_succ_self _)
    _ _ _ hrun hgap

/-- Only a run clause has gaps in it. -/
theorem argumentWithin_succ_crosses
    (harguments : ArgumentsCross seam limit room origin) (hc : origin ≤ c) :
    Crosses seam ⟨limit, .strict⟩ c (argumentWithin (room + 1) inMacro)
      (argumentWithin (room + 1) inMacro) fun value => seam.gap ∈ value.gaps := by
  intro value log d hrun hgap
  obtain ⟨n, clause, rfl, hword, htext, hsub⟩ : ∃ n clause, value = .run clause ∧
      Scan.word c.rest = some n ∧ c.textBetween 0 n = "run" ∧
      startsSubcommand (c.rest.drop n) := by
    cases (argumentWithin_reads (room + 1) inMacro c).post_of_run hrun with
    | run hword htext hsub _ => exact ⟨_, _, rfl, hword, htext, hsub⟩
    | _ => cases hgap
  have hlen := (Scan.inline_word hword).le_length
  have hnext := Cursor.le_advance hlen
  rw [argumentWithin, argument_run hword htext hsub] at hrun
  obtain ⟨clause', hclause, heq⟩ := map_eq_done hrun
  cases heq
  obtain ⟨hstop, hd, log', hclause'⟩ := runClause_crosses hcut harguments (hc.trans hnext) hnext
    (Cursor.offset_of_run hlen htext) _ _ _ (wideningTooDeep_eq_done hclause) hgap
  refine ⟨hnext.trans hstop, hd, log', ?_⟩
  have hsub' : startsSubcommand ((seam.place c).rest.drop n) := by
    rwa [← (Seam.facing_drop_word hword).startsSubcommand seam.interchangeable]
  rw [argumentWithin, argument_run ((Seam.place_word c).trans hword)
    ((Seam.place_textBetween hlen hstop).trans htext) hsub', Seam.place_advance hlen hstop]
  exact map_done (g := Argument.run) (orElse_done hclause')

/-- Arguments with the gap in them cross it, whatever room for nesting is left. -/
theorem argumentWithin_crosses (room : Nat) (inMacro : Bool) (hc : origin ≤ c) :
    Crosses seam ⟨limit, .strict⟩ c (argumentWithin room inMacro) (argumentWithin room inMacro)
      fun value => seam.gap ∈ value.gaps := by
  induction room generalizing inMacro c with
  | zero =>
      intro value log d hrun hgap
      cases (argumentWithin_reads 0 inMacro c).post_of_run hrun with
      | run _ _ _ h => exact h.elim
      | _ => cases hgap
  | succ room ih =>
      exact argumentWithin_succ_crosses hcut
        (fun inMacro c hc => .arguments hcut (fun c hc => ih inMacro hc) hc) hc

/-- The arguments of a command, with any number of levels left. -/
theorem arguments_crosses (room : Nat) : ArgumentsCross seam limit room origin :=
  fun inMacro _ hc =>
    .arguments hcut (fun _ hc => argumentWithin_crosses hcut room inMacro hc) hc

end Levels

end Parser

end Mcfunction
