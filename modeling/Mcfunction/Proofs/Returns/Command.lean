import Mcfunction.Proofs.Parser.Command
import Mcfunction.Proofs.Returns.Container

/-!
# Commands without Carriage Returns

An argument stands behind trivia or is glued to the one before it, and so never starts at a return.
The returns before the end of a line end the arguments of a command as the line feed alone does.

## Main results

* `arguments_mirrors`: the arguments of a command, with any number of levels left.
* `command_mirrors`, `macroCommand_mirrors`: commands.
-/

namespace Mcfunction.Parser

open Text (unix unixCount unix_cons)
open Scan (ReturnFree)

variable {t : DosText} {s : Settings} {c d : Cursor} {n room : Nat}

/-! ### Looking ahead -/

/-- Whether a path suffix starts does not depend on returns. -/
theorem startsPathSuffix_unix {chars : List Char} (h : Text.Paired chars) :
    startsPathSuffix (unix chars) = startsPathSuffix chars := by
  refine h.answer_unix (fun _ => rfl) fun x tail _ _ => ?_
  by_cases hpoint : x = '.' <;> by_cases hsquare : x = '[' <;> by_cases hcurly : x = '{' <;>
    simp [startsPathSuffix, hpoint, hsquare, hcurly]

/-- Where a line ends no subcommand follows, with a return or without. -/
theorem startsSubcommand_unix {chars : List Char} (h : Text.Paired chars) :
    startsSubcommand (unix chars) = startsSubcommand chars := by
  refine h.answer_unix (fun _ => rfl) fun x tail hx h => ?_
  have hrest := h.drop (Scan.trivia (x :: tail))
  have hstart := Scan.startsInterpolation_unix hrest
  have hpos : (0 < unixCount (x :: tail) (Scan.trivia (x :: tail))) =
      (0 < Scan.trivia (x :: tail)) := by
    rcases Scan.trivia (x :: tail) with _ | gap
    · rfl
    · simp [Text.unixCount_cons hx]
  rw [← unix_cons hx]
  simp only [startsSubcommand, Scan.trivia_unix h, ← Text.unix_drop, hpos]
  rcases hrest.cases with hdrop | ⟨rest, hdrop⟩ | ⟨y, rest, hdrop, hy⟩
  · rw [hdrop]
    rfl
  · rw [hdrop]
    rfl
  · rw [hdrop, unix_cons hy] at hstart
    rw [hdrop, unix_cons hy]
    simp only [hstart]

/-! ### Arguments without commands inside -/

/-- Cutting out a text without returns does not disturb the lockstep. -/
theorem mirrors_sliceText_bind {α : Type} [Retell α] {f f' : String → Parser α}
    (hn : ReturnFree c.rest n) :
    Mirrors t s d (sliceText c c.offset (c.offsetAfter n) >>= f)
        (sliceText (t.back c) (t.back c).offset ((t.back c).offsetAfter n) >>= f') ↔
      Mirrors t s d (f (c.textBetween 0 n)) (f' (c.textBetween 0 n)) := by
  refine mirrors_bind_iff (sliceText_run c.offset_eq_advance_zero (Nat.zero_le n) hn.le_length) ?_
  rw [← DosText.back_textBetween (t := t) hn]
  exact sliceText_run (Cursor.offset_eq_advance_zero _) (Nat.zero_le n)
    (DosText.length_back_of_free hn)

/-- Selectors are read in lockstep, with the settings behind them. -/
theorem selector_mirrors (hat : c.peek = some '@') (hc : t.start ≤ c) :
    Mirrors t s c (selector (containers room)) (selector (containers room)) := by
  have hone : ReturnFree c.rest 1 := DosText.returnFree_one hat (by decide)
  have hmore := hc.trans (Cursor.le_advance hone.le_length)
  have htarget : ((t.back c).advance 1).peek.bind SelectorTarget.ofChar? =
      (c.advance 1).peek.bind SelectorTarget.ofChar? := by
    rw [DosText.back_advance_of_free hc hone]
    exact DosText.back_peek_bind hmore rfl rfl
  rw [selector, mirrors_here_bind, htarget]
  rcases hscan : (c.advance 1).peek.bind SelectorTarget.ofChar? with _ | target
  · have hpaired := DosText.paired_rest hmore
    rw [Cursor.advance_rest] at hpaired
    have hrun : Scan.run Scan.isWordChar ((t.back c).rest.drop 1) =
        Scan.run Scan.isWordChar (c.rest.drop 1) := by
      rw [DosText.back_rest, hone.drop_unix, Scan.run_unix rfl rfl hpaired]
    have hfree : ReturnFree c.rest (1 + Scan.run Scan.isWordChar (c.rest.drop 1)) :=
      hone.add ((Scan.taken_run _ _).returnFree rfl)
    dsimp only
    rw [hrun, mirrors_sliceText_bind hfree]
    exact .failAt rfl rfl (DosText.back_offsetAfter_of_free hc hfree)
  · obtain ⟨x, hpeek, htarget⟩ := Option.bind_eq_some_iff.mp hscan
    have hx : x ≠ '\r' := by
      rintro rfl
      cases htarget
    have htwo : ReturnFree c.rest 2 := by
      have hnext : ReturnFree (c.advance 1).rest 1 := DosText.returnFree_one hpeek hx
      rw [Cursor.advance_rest] at hnext
      exact hone.add hnext
    have hnext := hc.trans (Cursor.le_advance htwo.le_length)
    have hfilter : ∀ (filter : Option NbtList) d, t.start ≤ d →
        Mirrors t s d (do return (⟨target, filter, ← spanFrom c.offset⟩ : Selector))
          (do return ⟨target, retell t.retelling filter, ← spanFrom (t.back c).offset⟩) :=
      fun filter d hd => (Mirrors.spanFrom rfl hd).bind fun place d hd =>
        .pure (⟨target, filter, place⟩ : Selector) hd
    dsimp only
    rw [mirrors_take_bind hc htwo.le_length htwo.unixCount_eq.symm, mirrors_here_bind,
      DosText.back_peek_beq hnext (by decide) (by decide)]
    split
    · rename_i hopen
      have hlist : Mirrors t s (c.advance 2) (some <$> list room) (some <$> list room) :=
        (list_mirrors room (beq_iff_eq.mp hopen) hnext).map fun _ => rfl
      exact hlist.bind hfilter
    · rw [pure_eq, mirrors_pure_bind]
      exact hfilter none _ hnext

/-- Fake players are read in lockstep. -/
theorem fakePlayer_mirrors (hc : t.start ≤ c) (hreturn : c.peek ≠ some '\r') :
    Mirrors t s c fakePlayer fakePlayer := by
  have hsame : Scan.fakePlayer (t.back c).rest = Scan.fakePlayer c.rest :=
    Scan.fakePlayer_unix (DosText.paired_rest hc)
  rcases hscan : Scan.fakePlayer c.rest with _ | n
  · rw [fakePlayer, mirrors_here_bind, hsame, hscan]
    exact unexpected_mirrors hc fun hpeek => absurd hpeek hreturn
  · have hfree : ReturnFree c.rest n := by
      obtain ⟨name, k, hrest, rfl, htaken⟩ := Scan.fakePlayer_taken hscan
      rw [hrest]
      exact .cons (by decide) (htaken.returnFree (by decide))
    refine .of_free hc hfree (fakePlayer_run hscan) ?_
    rw [fakePlayer_run (hsame.trans hscan), DosText.back_fakePlayer hc hfree]

/-- A quoted string is read in lockstep, alone or as the first key of a path. -/
theorem stringOrPath_mirrors (hc : t.start ≤ c) (hquoted : Scan.startsQuoted c.rest) :
    Mirrors t s c (stringOrPath (containers room)) (stringOrPath (containers room)) := by
  rw [stringOrPath]
  refine (quotedString_mirrors hc hquoted).bind fun literal d hd => ?_
  have hsuffix : startsPathSuffix (t.back d).rest = startsPathSuffix d.rest :=
    startsPathSuffix_unix (DosText.paired_rest hd)
  rw [mirrors_here_bind, hsuffix]
  split
  · exact (pathFrom_mirrors hd).bind fun path d hd => .pure (Argument.path path) hd
  · exact .pure (Argument.string literal) hd

/-- Both texts miss the separator at the same place. -/
theorem missingSeparator_mirrors {α : Type} [Retell α] (hc : t.start ≤ c) (hne : c.rest ≠ [])
    (hreturn : c.peek ≠ some '\r') :
    Mirrors t s c (missingSeparator : Parser α) missingSeparator := by
  obtain ⟨x, tail, hrest, -, hx⟩ := DosText.exists_of_not_return hne hreturn
  have hpaired := DosText.paired_rest hc
  have hchunk : Scan.chunk (t.back c).rest = Scan.chunk c.rest := by
    rw [hrest] at hpaired
    rw [DosText.back_rest, hrest, Scan.chunk_unix hx hpaired]
  have hfree : ReturnFree c.rest (Scan.chunk c.rest) := by
    rw [hrest]
    exact Scan.returnFree_chunk hx tail
  rw [missingSeparator, mirrors_here_bind, hchunk]
  exact .failAt rfl rfl (DosText.back_offsetAfter_of_free hc hfree)

/-! ### Arguments -/

section Arguments

variable {run run' : Cursor → Parser RunClause} {inMacro : Bool}
  (hrun : ∀ start d, t.start ≤ start → Scan.atLineEnd start.rest = false →
    start.peek ≠ some '\r' → t.start ≤ d → Mirrors t s d (run start) (run' (t.back start)))
  (hc : t.start ≤ c) (hline : Scan.atLineEnd c.rest = false) (hreturn : c.peek ≠ some '\r')

include hrun hc hline hreturn

/-- Words are told apart and read in the same way in both texts, run clauses included. -/
theorem wordArgument_mirrors (hword : Scan.word c.rest = some n) :
    Mirrors t s c (wordArgument (containers room) run n)
      (wordArgument (containers room) run' n) := by
  have hfree : ReturnFree c.rest n := (Scan.taken_word hword).returnFree (by decide)
  have hpaired := (DosText.paired_rest hc).drop n
  have htext : Text.toUnix (c.textRun n).text = (c.textRun n).text :=
    DosText.toUnix_textBetween hfree
  rw [wordArgument, wordArgument, mirrors_here_bind]
  dsimp only
  rw [DosText.back_rest, hfree.drop_unix, startsPathSuffix_unix hpaired,
    startsSubcommand_unix hpaired]
  split
  · refine (bareString_mirrors hc hfree).bind fun name d hd => ?_
    have hpath : Mirrors t s d (pathFrom (containers room) (.plain name))
        (pathFrom (containers room) (.plain _)) :=
      pathFrom_mirrors hd
    exact hpath.bind fun path d hd => .pure (Argument.path path) hd
  · refine (textRun_mirrors hc hfree).bind_of fun word _ d hword hd => ?_
    rw [textRun_run hfree.le_length] at hword
    cases hword
    have hsame : (retell t.retelling (c.textRun n)).text = (c.textRun n).text := htext
    rw [hsame]
    split
    · exact .pure (Argument.boolean ⟨true, (c.textRun n).span⟩) hd
    · exact .pure (Argument.boolean ⟨false, (c.textRun n).span⟩) hd
    · split
      · exact (hrun c _ hc hline hreturn hd).bind fun clause d hd => .pure (Argument.run clause) hd
      · exact .pure (Argument.keyword (c.textRun n)) hd
    · exact .pure (Argument.keyword (c.textRun n)) hd

/-- An argument outside a macro is read in lockstep. -/
theorem plainArgument_mirrors :
    Mirrors t s c (plainArgument (containers room) run)
      (plainArgument (containers room) run') := by
  have hpaired := DosText.paired_rest hc
  have hcoordinates : Scan.coordinates (t.back c).rest = Scan.coordinates c.rest :=
    Scan.coordinates_unix hpaired
  have hspace : Scan.resourceNamespace (t.back c).rest = Scan.resourceNamespace c.rest :=
    Scan.resourceNamespace_unix hpaired
  have hnumber : Scan.wholeNumber (t.back c).rest = Scan.wholeNumber c.rest :=
    Scan.wholeNumber_unix hpaired
  have hword : Scan.word (t.back c).rest = Scan.word c.rest := Scan.word_unix hpaired
  rw [plainArgument, plainArgument, mirrors_here_bind, hcoordinates, hspace, hnumber, hword]
  split
  · exact (coordinates_mirrors hc (ne_nil_of_not_atLineEnd hline) hreturn).bind
      fun coordinates d hd => .pure (Argument.coordinates coordinates) hd
  · rcases hscan : Scan.resourceNamespace c.rest with _ | space
    · dsimp only
      split
      · rename_i hnumber
        exact (number_mirrors hc hnumber).bind fun number d hd => .pure (Argument.number number) hd
      · rename_i hword
        exact wordArgument_mirrors hrun hc hline hreturn hword
      · exact unexpected_mirrors hc fun hpeek => absurd hpeek hreturn
    · have hpath : Scan.path ((t.back c).rest.drop (space + 1)) =
          Scan.path (c.rest.drop (space + 1)) := Scan.path_drop_unix hpaired hscan
      dsimp only
      rw [hpath]
      rcases hfound : Scan.path (c.rest.drop (space + 1)) with _ | path
      · have hfree := Scan.returnFree_resourceNamespace hscan
        rw [mirrors_sliceText_bind (hfree.of_le (Nat.le_succ space))]
        exact .failAt rfl rfl (DosText.back_offsetAfter_of_free hc hfree)
      · exact (resourceLocation_mirrors hc hscan hfound).bind fun location d hd =>
          .pure (Argument.resource location) hd

/-- Arguments are read in lockstep. -/
theorem argument_mirrors :
    Mirrors t s c (argument (containers room) run inMacro)
      (argument (containers room) run' inMacro) := by
  have hne := ne_nil_of_not_atLineEnd hline
  have hinterpolated : Scan.startsInterpolated false (t.back c).rest =
      Scan.startsInterpolated false c.rest :=
    Scan.startsInterpolated_unix (DosText.paired_rest hc)
  rw [argument, argument, mirrors_here_bind, hinterpolated, DosText.back_peek hc hreturn]
  split
  · rw [interpolatedArgument]
    refine (interpolated_mirrors hc).bind fun argument d hd => ?_
    split
    · exact .pure (Argument.interpolated argument) hd
    · exact .fail ⟨.interpolationInCommand, argument.span⟩
  · split
    · exact (coordinates_mirrors hc hne hreturn).bind fun coordinates d hd =>
        .pure (Argument.coordinates coordinates) hd
    · exact (coordinates_mirrors hc hne hreturn).bind fun coordinates d hd =>
        .pure (Argument.coordinates coordinates) hd
    · rename_i hpeek
      exact stringOrPath_mirrors hc (startsQuoted_of_peek hpeek (.inl rfl))
    · rename_i hpeek
      exact stringOrPath_mirrors hc (startsQuoted_of_peek hpeek (.inr rfl))
    · rename_i hpeek
      exact (selector_mirrors hpeek hc).bind fun selector d hd =>
        .pure (Argument.selector selector) hd
    · rename_i hpeek
      exact (list_mirrors room hpeek hc).bind fun list d hd => .pure (Argument.list list) hd
    · rename_i hpeek
      exact (compound_mirrors room hpeek hc).bind fun compound d hd =>
        .pure (Argument.compound compound) hd
    · exact (fakePlayer_mirrors hc hreturn).bind fun player d hd =>
        .pure (Argument.fakePlayer player) hd
    · exact plainArgument_mirrors hrun hc hline hreturn

end Arguments

/-- Whether an argument stands for an error does not depend on returns. -/
theorem isPlaceholder_retell (r : Retelling) (argument : Argument) :
    isPlaceholder (retell r argument) = isPlaceholder argument := by
  cases argument <;> rfl

/-- A list of arguments is read in lockstep if each argument is, whatever fuel the loops are
given. -/
theorem argumentList_mirrors {argument argument' : Parser Argument} {afterError : Bool}
    {fuel fuel' : Nat}
    (hargument : ∀ c, t.start ≤ c → Scan.atLineEnd c.rest = false → c.peek ≠ some '\r' →
      Mirrors t s c argument argument')
    (hc : t.start ≤ c) :
    Mirrors t s c (argumentList argument afterError fuel)
      (argumentList argument' afterError fuel') := by
  induction fuel generalizing c fuel' afterError with
  | zero => exact .breakOff _
  | succ fuel ih =>
      rcases fuel' with _ | fuel'
      · exact .breakOffUnix _
      · have hstart := hc.trans c.le_skipTrivia
        have hreturn := DosText.peek_skipTrivia c
        rw [argumentList, argumentList, mirrors_here_bind, mirrors_skipTrivia_bind hc,
          mirrors_here_bind, DosText.back_atLineEnd hstart hreturn]
        split
        · rw [mirrors_moveTo_bind]
          exact .pure [] hc
        · rename_i hline
          rw [Bool.not_eq_true] at hline
          have hne := ne_nil_of_not_atLineEnd hline
          have hgap : ((t.back c.skipTrivia).offset == (t.back c).offset) =
              (c.skipTrivia.offset == c.offset) := by
            rw [BEq.comm, BEq.comm (a := c.skipTrivia.offset)]
            exact DosText.place_beq hstart hline hreturn
          rw [hgap, DosText.back_peek hstart hreturn]
          have hfirst : ∀ glued : Bool, Mirrors t s c.skipTrivia
              (orPlaceholder (if glued then missingSeparator else argument) .error)
              (orPlaceholder (if glued then missingSeparator else argument') .error) := by
            intro glued
            refine orPlaceholder_mirrors (fun _ => rfl) hstart hne hreturn ?_
            cases glued with
            | true => exact missingSeparator_mirrors hstart hne hreturn
            | false => exact hargument _ hstart hline hreturn
          refine (hfirst _).bind fun first d hd => ?_
          rw [isPlaceholder_retell]
          exact (ih hd).bind fun more d hd => .pure (first :: more) hd

/-! ### Commands -/

/-- Command names are read in lockstep. -/
theorem commandName_mirrors (hc : t.start ≤ c) (hreturn : c.peek ≠ some '\r') :
    Mirrors t s c commandName commandName := by
  have hsame : Scan.commandName (t.back c).rest = Scan.commandName c.rest :=
    Scan.commandName_unix (DosText.paired_rest hc)
  rw [commandName, mirrors_here_bind, hsame]
  rcases hscan : Scan.commandName c.rest with _ | n
  · exact unexpected_mirrors hc fun hpeek => absurd hpeek hreturn
  · exact textRun_mirrors hc ((Scan.taken_commandName hscan).returnFree (by decide))

/-- Names of macro commands are read in lockstep. -/
theorem macroName_mirrors (hc : t.start ≤ c) (hreturn : c.peek ≠ some '\r') :
    Mirrors t s c macroName macroName := by
  have hpaired := DosText.paired_rest hc
  have hstart : Scan.startsInterpolation (t.back c).rest = Scan.startsInterpolation c.rest :=
    Scan.startsInterpolation_unix hpaired
  have hname : Scan.commandName (t.back c).rest = Scan.commandName c.rest :=
    Scan.commandName_unix hpaired
  rw [macroName, mirrors_here_bind, hstart, hname]
  split
  · rename_i hopen
    exact (interpolation_mirrors hc hopen).bind fun piece d hd =>
      .pure (MacroName.interpolation piece) hd
  · split
    · exact (commandName_mirrors hc hreturn).bind fun name d hd => .pure (MacroName.literal name) hd
    · exact unexpected_mirrors hc fun hpeek => absurd hpeek hreturn

/-- The end of a command follows the text when the returns go. -/
theorem mirrors_commandEnd_bind {α : Type} [Retell α] {f f' : Nat → Parser α} {start start' : Nat}
    {arguments : List Argument} (hstart : start' = t.place start)
    (h : ∀ stop, Mirrors t s c (f stop) (f' (t.place stop))) :
    Mirrors t s c (commandEnd start arguments >>= f)
      (commandEnd start' (retell t.retelling arguments) >>= f') := by
  subst hstart
  have hlast : (retell t.retelling arguments).getLast? =
      arguments.getLast?.map (retell t.retelling) :=
    List.getLast?_map
  rw [commandEnd, commandEnd, hlast]
  rcases arguments.getLast? with _ | last
  · have hrun : ∀ (place : Cursor) start, (here >>= fun place =>
        (Pure.pure (max place.offset start) : Parser Nat)) s place =
          .done (max place.offset start) [] place := fun _ _ => rfl
    refine (mirrors_bind_iff (hrun c start) (hrun (t.back c) _)).mpr ?_
    rw [DosText.back_offset, ← DosText.place_max]
    exact h _
  · have hstop : (retell t.retelling last).span.stop = t.place last.span.stop := by
      rw [Argument.span_retell]
      rfl
    simp only [Option.map_some, hstop, ← DosText.place_max]
    exact mirrors_pure_bind.mpr (h _)

/-- The subcommand of a retold command is the retold subcommand. -/
theorem subcommandOf_retell (r : Retelling) (command : Command) :
    subcommandOf (retell r command) = retell r (subcommandOf command) := by
  obtain ⟨name, arguments, place⟩ := command
  have hany : (Argument.allRetold r arguments).any isInterpolated =
      arguments.any isInterpolated := by
    rw [Argument.allRetold_eq]
    refine List.any_map.trans (List.any_congr rfl fun argument => ?_)
    cases argument <;> rfl
  change subcommandOf ⟨_, Argument.allRetold r arguments, _⟩ = _
  simp only [subcommandOf, hany]
  split <;> rfl

section Commands

variable {arguments arguments' : Bool → Parser (List Argument)}
  (harguments : ∀ inMacro c, t.start ≤ c →
    Mirrors t s c (arguments inMacro) (arguments' inMacro))

include harguments

/-- Commands are read in lockstep. -/
theorem command_mirrors (inMacro : Bool) (hc : t.start ≤ c) (hreturn : c.peek ≠ some '\r') :
    Mirrors t s c (command (arguments inMacro)) (command (arguments' inMacro)) := by
  rw [command, command, mirrors_here_bind]
  refine (commandName_mirrors hc hreturn).bind fun name d hd => ?_
  refine (harguments inMacro d hd).bind fun args d hd => ?_
  refine mirrors_commandEnd_bind rfl fun stop => (Mirrors.span rfl rfl hd).bind fun place d hd => ?_
  rw [← Argument.allRetold_eq]
  exact .pure (⟨name, args, place⟩ : Command) hd

/-- Macro commands are read in lockstep. -/
theorem macroCommand_mirrors (inMacro : Bool) (hdollar : c.peek = some '$') (hc : t.start ≤ c) :
    Mirrors t s c (macroCommand (arguments inMacro)) (macroCommand (arguments' inMacro)) := by
  have hnext := hc.trans (Cursor.le_advance_of_peek hdollar)
  rw [macroCommand, macroCommand, mirrors_here_bind, mirrors_take_one_bind hc hdollar (by decide),
    mirrors_skipTrivia_bind hnext]
  refine (macroName_mirrors (hnext.trans (Cursor.le_skipTrivia _))
    (DosText.peek_skipTrivia _)).bind fun name d hd => ?_
  refine (harguments inMacro d hd).bind fun args d hd => ?_
  have hstart : (retell t.retelling name).span.start = t.place name.span.start := by
    rw [MacroName.span_retell]
    rfl
  refine mirrors_commandEnd_bind hstart fun stop => (Mirrors.span rfl rfl hd).bind
    fun place d hd => ?_
  rw [← Argument.allRetold_eq]
  exact .pure (⟨name, args, place⟩ : MacroCommand) hd

/-- Run clauses are read in lockstep. -/
theorem runClause_mirrors {start : Cursor} (inMacro : Bool) (hc : t.start ≤ c) :
    Mirrors t s c (runClause arguments inMacro start)
      (runClause arguments' inMacro (t.back start)) := by
  have hnext := hc.trans c.le_skipTrivia
  have hreturn := DosText.peek_skipTrivia c
  have hclause : ∀ (subcommand : Subcommand) d, t.start ≤ d →
      Mirrors t s d (do return (⟨subcommand, ← span start.offset subcommand.span.stop⟩ : RunClause))
        (do return ⟨retell t.retelling subcommand,
          ← span (t.back start).offset (retell t.retelling subcommand).span.stop⟩) := by
    intro subcommand d hd
    have hstop : (retell t.retelling subcommand).span.stop = t.place subcommand.span.stop := by
      rw [Subcommand.span_retell]
      rfl
    exact (Mirrors.span rfl hstop hd).bind fun place d hd =>
      .pure (⟨subcommand, place⟩ : RunClause) hd
  rw [runClause, runClause, mirrors_skipTrivia_bind hc, mirrors_here_bind,
    DosText.back_peek hnext hreturn]
  split
  · rename_i hdollar
    have hcommand : Mirrors t s c.skipTrivia
        (Subcommand.macroCommand <$> macroCommand (arguments true))
        (Subcommand.macroCommand <$> macroCommand (arguments' true)) :=
      (macroCommand_mirrors harguments true (beq_iff_eq.mp hdollar) hnext).map fun _ => rfl
    exact hcommand.bind hclause
  · have hcommand : Mirrors t s c.skipTrivia (subcommandOf <$> command (arguments inMacro))
        (subcommandOf <$> command (arguments' inMacro)) :=
      (command_mirrors harguments inMacro hnext hreturn).map fun command =>
        subcommandOf_retell _ command
    exact hcommand.bind hclause

end Commands

/-! ### Run clauses -/

/-- Giving an error of a clause the rest of its line keeps the lockstep. -/
theorem wideningTooDeep_mirrors {start : Cursor} {clause clause' : Parser RunClause}
    (hstart : t.start ≤ start) (hline : Scan.atLineEnd start.rest = false)
    (hreturn : start.peek ≠ some '\r') (h : Mirrors t s c clause clause') :
    Mirrors t s c (wideningTooDeep start clause) (wideningTooDeep (t.back start) clause') := by
  have htrimmed : Scan.trimmedStatement (t.back start).rest =
      unixCount start.rest (Scan.trimmedStatement start.rest) :=
    Scan.trimmedStatement_unix (DosText.paired_rest hstart)
  have hlen := (Scan.trimmedStatement_le_statement start.rest).trans
    (Scan.statement_le_length start.rest)
  refine h.orElse fun error => ?_
  have hsame : ((t.error error).span.start == (t.back start).offset) =
      (error.span.start == start.offset) :=
    DosText.place_beq hstart hline hreturn
  rw [hsame, htrimmed, DosText.back_offsetAfter hstart hlen]
  obtain ⟨cause, span⟩ := error
  cases cause with
  | nestingTooDeep limit =>
      dsimp only
      split
      · exact .failAt rfl rfl rfl
      · exact .fail ⟨.nestingTooDeep limit, span⟩
  | unexpectedToken wanted found =>
      have herror : (t.error ⟨.unexpectedToken wanted found, span⟩).cause =
          if Cause.unexpectedToken wanted found = segmentAtReturn then segmentAtEnd
          else .unexpectedToken wanted found := rfl
      by_cases hsegment : Cause.unexpectedToken wanted found = segmentAtReturn
      · rw [herror, if_pos hsegment]
        exact .fail ⟨_, span⟩
      · rw [herror, if_neg hsegment]
        exact .fail ⟨_, span⟩
  | _ => exact .fail ⟨_, span⟩

/-- Arguments are read in lockstep, whatever room for nesting is left. -/
theorem arguments_mirrors (room : Nat) (inMacro : Bool) (hc : t.start ≤ c) :
    Mirrors t s c (arguments room inMacro) (arguments room inMacro) := by
  induction room generalizing inMacro c with
  | zero =>
      rw [arguments_zero, argumentsOf, mirrors_here_bind]
      refine argumentList_mirrors (fun c hc hline hreturn => ?_) hc
      exact argument_mirrors (fun start d hstart hline hreturn _ =>
        wideningTooDeep_mirrors hstart hline hreturn (tooDeep_mirrors hstart hreturn)) hc hline
        hreturn
  | succ room ih =>
      rw [arguments_succ, argumentsOf, mirrors_here_bind]
      refine argumentList_mirrors (fun c hc hline hreturn => ?_) hc
      exact argument_mirrors (fun start d hstart hline hreturn hd =>
        wideningTooDeep_mirrors hstart hline hreturn
          (runClause_mirrors (fun _ _ => ih _) inMacro hd)) hc hline hreturn

end Mcfunction.Parser
