import Mcfunction.Proofs.Lines.Container
import Mcfunction.Proofs.Parser.Command

/-!
# Commands in Longer Texts

The arguments of a command end with its line. Errors name the same limit on nesting, and a run
clause past it is skipped up to the same place.

## Main results

* `arguments_copies`: the arguments of a command, with any number of levels left.
* `command_copies`, `macroCommand_copies`: commands.
-/

namespace Mcfunction.Parser

variable {e : Embedding} {s : Settings} {c d : Cursor} {n room : Nat}

/-! ### Looking ahead -/

/-- Whether a path suffix starts does not depend on the next line. -/
theorem startsPathSuffix_append {chars tail : List Char} (h : Scan.Ends chars tail) :
    startsPathSuffix (chars ++ tail) = startsPathSuffix chars := by
  rcases chars with _ | ⟨x, chars⟩
  · cases h <;> rfl
  · by_cases hpoint : x = '.' <;> by_cases hsquare : x = '[' <;> by_cases hcurly : x = '{' <;>
      simp [startsPathSuffix, hpoint, hsquare, hcurly]

/-- Whether a subcommand starts does not depend on the next line. -/
theorem startsSubcommand_append {chars tail : List Char} (h : Scan.Ends chars tail) :
    startsSubcommand (chars ++ tail) = startsSubcommand chars := by
  have hrest := h.drop (Scan.trivia chars)
  have hstart := Scan.startsInterpolation_append hrest
  simp only [startsSubcommand, Scan.trivia_append_tail h,
    Scan.drop_append (Scan.trivia_le_length chars)]
  rcases hdrop : chars.drop (Scan.trivia chars) with _ | ⟨x, rest⟩
  · rw [hdrop] at hrest
    cases hrest <;> rfl
  · rw [hdrop, List.cons_append] at hstart
    simp only [List.cons_append, hstart]

/-! ### Arguments without commands inside -/

/-- Cutting out a text leaves only the rest to be copied. -/
theorem copies_sliceText_bind {α : Type} [Shift α] {f f' : String → Parser α}
    (hn : n ≤ c.rest.length) :
    Copies e s d (sliceText c c.offset (c.offsetAfter n) >>= f)
        (sliceText (e.place c) (e.place c).offset ((e.place c).offsetAfter n) >>= f') ↔
      Copies e s d (f (c.textBetween 0 n)) (f' (c.textBetween 0 n)) := by
  refine copies_bind_iff (sliceText_run c.offset_eq_advance_zero (Nat.zero_le n) hn) ?_
  rw [← Embedding.place_textBetween (e := e) hn]
  exact sliceText_run (Cursor.offset_eq_advance_zero _) (Nat.zero_le n)
    (hn.trans (Embedding.length_le_place c))

/-- Selectors are copied, with the settings behind them. -/
theorem selector_copies (hat : c.peek = some '@') (hc : e.start ≤ c) :
    Copies e s c (selector (containers room)) (selector (containers room)) := by
  obtain ⟨rest, hrest⟩ := List.head?_eq_some_iff.mp hat
  have hone : 1 ≤ c.rest.length := by simp [hrest]
  have htarget : ((e.place c).advance 1).peek.bind SelectorTarget.ofChar? =
      (c.advance 1).peek.bind SelectorTarget.ofChar? := by
    rw [Embedding.place_advance hone]
    exact Embedding.place_peek_bind rfl
  rw [selector, copies_here_bind, htarget]
  rcases hscan : (c.advance 1).peek.bind SelectorTarget.ofChar? with _ | target
  · have hends := Embedding.ends_of_le (hc.trans (Cursor.le_advance hone))
    have hrun : Scan.run Scan.isWordChar ((e.place c).rest.drop 1) =
        Scan.run Scan.isWordChar (c.rest.drop 1) := by
      rw [Cursor.advance_rest] at hends
      simp only [Embedding.place, Scan.drop_append hone]
      exact Scan.run_append (by decide) hends
    have hlen : 1 + Scan.run Scan.isWordChar (c.rest.drop 1) ≤ c.rest.length := by
      have := Scan.run_le_length Scan.isWordChar (c.rest.drop 1)
      rw [List.length_drop] at this
      omega
    dsimp only
    rw [hrun, copies_sliceText_bind hlen]
    exact .failAt rfl (Embedding.place_offsetAfter hlen)
  · obtain ⟨x, hpeek, -⟩ := Option.bind_eq_some_iff.mp hscan
    obtain ⟨tail, hdrop⟩ := List.head?_eq_some_iff.mp hpeek
    have htwo : 2 ≤ c.rest.length := by
      rw [Cursor.advance_one_of_cons hrest] at hdrop
      simp [hrest, hdrop]
    have hnext := hc.trans (Cursor.le_advance htwo)
    have hfilter : ∀ (filter : Option NbtList) d, e.start ≤ d →
        Copies e s d (do return (⟨target, filter, ← spanFrom c.offset⟩ : Selector))
          (do return ⟨target, shift e.bytes filter, ← spanFrom (e.place c).offset⟩) :=
      fun filter d hd => (Copies.spanFrom rfl hd).bind fun place d hd =>
        .pure (⟨target, filter, place⟩ : Selector) hd
    dsimp only
    rw [copies_take_bind htwo, copies_here_bind, place_peek_beq (by decide)]
    split
    · rename_i hopen
      have hlist : Copies e s (c.advance 2) (some <$> list room) (some <$> list room) :=
        (list_copies room (beq_iff_eq.mp hopen) hnext).map fun _ => rfl
      exact hlist.bind hfilter
    · rw [pure_eq, copies_pure_bind]
      exact hfilter none _ hnext

/-- Fake players are copied. -/
theorem fakePlayer_copies (hc : e.start ≤ c) : Copies e s c fakePlayer fakePlayer := by
  have hsame : Scan.fakePlayer (e.place c).rest = Scan.fakePlayer c.rest :=
    Scan.fakePlayer_append (Embedding.ends_of_le hc)
  rcases hscan : Scan.fakePlayer c.rest with _ | n
  · rw [fakePlayer, copies_here_bind, hsame, hscan]
    exact unexpected_copies hc
  · obtain ⟨name, k, hrest, rfl, hline⟩ := Scan.fakePlayer_eq_some hscan
    have hlen : k + 1 ≤ c.rest.length := by
      rw [hrest]
      exact Nat.succ_le_succ hline.le_length
    have hplayer : (e.place c).fakePlayer (k + 1) = shift e.bytes (c.fakePlayer (k + 1)) := by
      simp only [Cursor.fakePlayer, Embedding.place_textBetween hlen,
        Embedding.place_advance hlen]
      rfl
    refine .of_run (fakePlayer_run hscan) ?_ (hc.trans (Cursor.le_advance hlen))
    rw [fakePlayer_run (hsame.trans hscan), hplayer, Embedding.place_advance hlen]

/-- A quoted string is copied, alone or as the first key of a path. -/
theorem stringOrPath_copies (hc : e.start ≤ c) (hquoted : Scan.startsQuoted c.rest) :
    Copies e s c (stringOrPath (containers room)) (stringOrPath (containers room)) := by
  rw [stringOrPath]
  refine (quotedString_copies hc hquoted).bind fun literal d hd => ?_
  have hsuffix : startsPathSuffix (e.place d).rest = startsPathSuffix d.rest :=
    startsPathSuffix_append (Embedding.ends_of_le hd)
  rw [copies_here_bind, hsuffix]
  split
  · exact (pathFrom_copies hd).bind fun path d hd => .pure (Argument.path path) hd
  · exact .pure (Argument.string literal) hd

/-- A missing separator is reported at corresponding places. -/
theorem missingSeparator_copies {α : Type} [Shift α] (hc : e.start ≤ c) (hne : c.rest ≠ []) :
    Copies e s c (missingSeparator : Parser α) missingSeparator := by
  have hchunk : Scan.chunk (e.place c).rest = Scan.chunk c.rest :=
    Scan.chunk_append (Embedding.ends_of_le hc) hne
  rw [missingSeparator, copies_here_bind, hchunk]
  exact .failAt rfl (Embedding.place_offsetAfter (Scan.chunk_le_length _))

/-! ### Arguments -/

section Arguments

variable {run run' : Cursor → Parser RunClause} {inMacro : Bool}
  (hrun : ∀ start d, e.start ≤ start → start.rest ≠ [] → e.start ≤ d →
    Copies e s d (run start) (run' (e.place start)))

include hrun

/-- Words are told apart in the same way in both texts, and run clauses are copied if their parsers
are. -/
theorem wordArgument_copies (hc : e.start ≤ c) (hword : Scan.word c.rest = some n) :
    Copies e s c (wordArgument (containers room) run n)
      (wordArgument (containers room) run' n) := by
  have hlen := (Scan.inline_word hword).le_length
  have hends := (Embedding.ends_of_le hc).drop n
  have hne : c.rest ≠ [] := List.length_pos_iff.mp ((Scan.word_pos hword).trans_le hlen)
  have hdrop : (e.place c).rest.drop n = c.rest.drop n ++ e.tail := Scan.drop_append hlen
  rw [wordArgument, wordArgument, copies_here_bind]
  dsimp only
  rw [hdrop, startsPathSuffix_append hends, startsSubcommand_append hends]
  split
  · refine (bareString_copies hc hlen).bind fun name d hd => ?_
    have hpath : Copies e s d (pathFrom (containers room) (.plain name))
        (pathFrom (containers room) (.plain _)) :=
      pathFrom_copies hd
    exact hpath.bind fun path d hd => .pure (Argument.path path) hd
  · refine (textRun_copies hc hlen).bind fun word d hd => ?_
    have htext : (shift e.bytes word).text = word.text := rfl
    rw [htext]
    split
    · exact .pure (Argument.boolean ⟨true, word.span⟩) hd
    · exact .pure (Argument.boolean ⟨false, word.span⟩) hd
    · split
      · exact (hrun c d hc hne hd).bind fun clause d hd => .pure (Argument.run clause) hd
      · exact .pure (Argument.keyword word) hd
    · exact .pure (Argument.keyword word) hd

/-- Arguments outside a macro are copied. -/
theorem plainArgument_copies (hc : e.start ≤ c) (hne : c.rest ≠ []) :
    Copies e s c (plainArgument (containers room) run) (plainArgument (containers room) run') := by
  have hends := Embedding.ends_of_le hc
  have hcoordinates : Scan.coordinates (e.place c).rest = Scan.coordinates c.rest :=
    Scan.coordinates_append hends
  have hspace : Scan.resourceNamespace (e.place c).rest = Scan.resourceNamespace c.rest :=
    Scan.resourceNamespace_append hends
  have hnumber : Scan.wholeNumber (e.place c).rest = Scan.wholeNumber c.rest :=
    Scan.wholeNumber_append hends
  have hword : Scan.word (e.place c).rest = Scan.word c.rest := Scan.word_append hends
  rw [plainArgument, plainArgument, copies_here_bind, hcoordinates, hspace, hnumber, hword]
  split
  · exact (coordinates_copies hc hne).bind fun coordinates d hd =>
      .pure (Argument.coordinates coordinates) hd
  · rcases hscan : Scan.resourceNamespace c.rest with _ | space
    · dsimp only
      split
      · rename_i hnumber
        exact (number_copies hc hnumber).bind fun number d hd => .pure (Argument.number number) hd
      · rename_i hword
        exact wordArgument_copies hrun hc hword
      · exact unexpected_copies hc
    · have hpath : Scan.path ((e.place c).rest.drop (space + 1)) =
          Scan.path (c.rest.drop (space + 1)) := Scan.path_drop_append hends hscan
      dsimp only
      rw [hpath]
      rcases hfound : Scan.path (c.rest.drop (space + 1)) with _ | path
      · obtain ⟨-, rest, hcolon⟩ := Scan.resourceNamespace_eq_some hscan
        have hlen : space + 1 ≤ c.rest.length := by
          by_contra hlt
          rw [List.drop_eq_nil_of_le (by omega)] at hcolon
          cases hcolon
        have hword : space ≤ c.rest.length := by omega
        rw [copies_sliceText_bind hword]
        exact .failAt rfl (Embedding.place_offsetAfter hlen)
      · exact (resourceLocation_copies hc hscan hfound).bind fun location d hd =>
          .pure (Argument.resource location) hd

/-- Arguments are copied. -/
theorem argument_copies (hc : e.start ≤ c) (hne : c.rest ≠ []) :
    Copies e s c (argument (containers room) run inMacro)
      (argument (containers room) run' inMacro) := by
  have hinterpolated : Scan.startsInterpolated false (e.place c).rest =
      Scan.startsInterpolated false c.rest :=
    Scan.startsInterpolated_append (Embedding.ends_of_le hc)
  have hquoted : ∀ {x}, c.peek = some x → (x = '"' ∨ x = '\'') →
      Copies e s c (stringOrPath (containers room)) (stringOrPath (containers room)) := by
    rintro x hpeek hx
    obtain ⟨rest, hrest⟩ := List.head?_eq_some_iff.mp hpeek
    refine stringOrPath_copies hc ?_
    rcases hx with rfl | rfl <;> (rw [hrest]; rfl)
  rw [argument, argument, copies_here_bind, hinterpolated, Embedding.place_peek hne]
  split
  · rw [interpolatedArgument]
    refine (interpolated_copies hc).bind fun argument d hd => ?_
    split
    · exact .pure (Argument.interpolated argument) hd
    · exact .fail ⟨.interpolationInCommand, argument.span⟩
  · split
    · exact (coordinates_copies hc hne).bind fun coordinates d hd =>
        .pure (Argument.coordinates coordinates) hd
    · exact (coordinates_copies hc hne).bind fun coordinates d hd =>
        .pure (Argument.coordinates coordinates) hd
    · rename_i hpeek
      exact hquoted hpeek (.inl rfl)
    · rename_i hpeek
      exact hquoted hpeek (.inr rfl)
    · rename_i hpeek
      exact (selector_copies hpeek hc).bind fun selector d hd =>
        .pure (Argument.selector selector) hd
    · rename_i hpeek
      exact (list_copies room hpeek hc).bind fun list d hd => .pure (Argument.list list) hd
    · rename_i hpeek
      exact (compound_copies room hpeek hc).bind fun compound d hd =>
        .pure (Argument.compound compound) hd
    · exact (fakePlayer_copies hc).bind fun player d hd => .pure (Argument.fakePlayer player) hd
    · exact plainArgument_copies hrun hc hne

end Arguments

/-- Whether an argument stands for an error does not depend on its place. -/
theorem isPlaceholder_shift (argument : Argument) (bytes : Nat) :
    isPlaceholder (shift bytes argument) = isPlaceholder argument := by
  cases argument <;> rfl

/-- More fuel than the arguments need changes nothing. -/
theorem argumentList_copies {argument argument' : Parser Argument} {afterError : Bool}
    {fuel fuel' : Nat}
    (hargument : ∀ c, e.start ≤ c → c.rest ≠ [] → Copies e s c argument argument')
    (hc : e.start ≤ c) (hfuel : fuel ≤ fuel') :
    Copies e s c (argumentList argument afterError fuel)
      (argumentList argument' afterError fuel') := by
  induction fuel generalizing c fuel' afterError with
  | zero => exact .breakOff _
  | succ fuel ih =>
      obtain ⟨fuel', rfl⟩ : ∃ k, fuel' = k + 1 := ⟨fuel' - 1, by omega⟩
      have hstart := hc.trans c.le_skipTrivia
      rw [argumentList, argumentList, copies_here_bind, copies_skipTrivia_bind hc,
        copies_here_bind, Embedding.place_atLineEnd hstart]
      split
      · rw [copies_moveTo_bind]
        exact .pure [] hc
      · rename_i hline
        have hne := ne_nil_of_not_atLineEnd (by simpa using hline)
        have hgap : ((e.place c.skipTrivia).offset == (e.place c).offset) =
            (c.skipTrivia.offset == c.offset) := by
          simp [Embedding.place]
        rw [hgap, Embedding.place_peek hne]
        have hfirst : ∀ glued : Bool, Copies e s c.skipTrivia
            (orPlaceholder (if glued then missingSeparator else argument) .error)
            (orPlaceholder (if glued then missingSeparator else argument') .error) := by
          intro glued
          refine orPlaceholder_copies (fun _ => rfl) hstart hne ?_
          cases glued with
          | true => exact missingSeparator_copies hstart hne
          | false => exact hargument _ hstart hne
        refine (hfirst _).bind fun first d hd => ?_
        rw [isPlaceholder_shift]
        exact (ih hd (by omega)).bind fun more d hd => .pure (first :: more) hd

/-! ### Commands -/

/-- Command names are copied. -/
theorem commandName_copies (hc : e.start ≤ c) : Copies e s c commandName commandName := by
  have hsame : Scan.commandName (e.place c).rest = Scan.commandName c.rest :=
    Scan.commandName_append (Embedding.ends_of_le hc)
  rw [commandName, copies_here_bind, hsame]
  rcases hscan : Scan.commandName c.rest with _ | n
  · exact unexpected_copies hc
  · exact textRun_copies hc (Scan.inline_commandName hscan).le_length

/-- Names of macro commands are copied. -/
theorem macroName_copies (hc : e.start ≤ c) : Copies e s c macroName macroName := by
  have hends := Embedding.ends_of_le hc
  have hstart : Scan.startsInterpolation (e.place c).rest = Scan.startsInterpolation c.rest :=
    Scan.startsInterpolation_append hends
  have hname : Scan.commandName (e.place c).rest = Scan.commandName c.rest :=
    Scan.commandName_append hends
  rw [macroName, copies_here_bind, hstart, hname]
  split
  · rename_i hopen
    exact (interpolation_copies hc hopen).bind fun piece d hd =>
      .pure (MacroName.interpolation piece) hd
  · split
    · exact (commandName_copies hc).bind fun name d hd => .pure (MacroName.literal name) hd
    · exact unexpected_copies hc

/-- The end of a command is shifted with its arguments. -/
theorem copies_commandEnd_bind {α : Type} [Shift α] {f f' : Nat → Parser α} {start start' : Nat}
    {arguments : List Argument} (hstart : start' = start + e.bytes)
    (h : ∀ stop, Copies e s c (f stop) (f' (stop + e.bytes))) :
    Copies e s c (commandEnd start arguments >>= f)
      (commandEnd start' (shift e.bytes arguments) >>= f') := by
  subst hstart
  have hlast : (shift e.bytes arguments).getLast? = arguments.getLast?.map (shift e.bytes) :=
    List.getLast?_map
  have hmax : ∀ stop, max (stop + e.bytes) (start + e.bytes) = max stop start + e.bytes := by
    intro stop
    omega
  rw [commandEnd, commandEnd, hlast]
  rcases arguments.getLast? with _ | last
  · have hrun : ∀ (place : Cursor) start, (here >>= fun place =>
        (Pure.pure (max place.offset start) : Parser Nat)) s place =
          .done (max place.offset start) [] place := fun _ _ => rfl
    refine (copies_bind_iff (hrun c start) (hrun (e.place c) _)).mpr ?_
    exact (hmax c.offset).symm ▸ h _
  · have hstop : (shift e.bytes last).span.stop = last.span.stop + e.bytes := by
      rw [Argument.span_shift]
      rfl
    simp only [Option.map_some, hstop, hmax]
    exact copies_pure_bind.mpr (h _)

/-- The subcommand of a shifted command is the shifted subcommand. -/
theorem subcommandOf_shift (command : Command) (bytes : Nat) :
    subcommandOf (shift bytes command) = shift bytes (subcommandOf command) := by
  obtain ⟨name, arguments, place⟩ := command
  have hany : (Argument.allShifted bytes arguments).any isInterpolated =
      arguments.any isInterpolated := by
    rw [Argument.allShifted_eq]
    refine List.any_map.trans (List.any_congr rfl fun argument => ?_)
    cases argument <;> rfl
  change subcommandOf ⟨_, Argument.allShifted bytes arguments, _⟩ = _
  simp only [subcommandOf, hany]
  split <;> rfl

section Commands

variable {arguments arguments' : Bool → Parser (List Argument)}
  (harguments : ∀ inMacro c, e.start ≤ c →
    Copies e s c (arguments inMacro) (arguments' inMacro))

include harguments

/-- Commands are copied. -/
theorem command_copies (inMacro : Bool) (hc : e.start ≤ c) :
    Copies e s c (command (arguments inMacro)) (command (arguments' inMacro)) := by
  rw [command, command, copies_here_bind]
  refine (commandName_copies hc).bind fun name d hd => ?_
  refine (harguments inMacro d hd).bind fun args d hd => ?_
  refine copies_commandEnd_bind rfl fun stop => (Copies.span rfl rfl hd).bind fun place d hd => ?_
  rw [← Argument.allShifted_eq]
  exact .pure (⟨name, args, place⟩ : Command) hd

/-- Macro commands are copied. -/
theorem macroCommand_copies (inMacro : Bool) (hdollar : c.peek = some '$') (hc : e.start ≤ c) :
    Copies e s c (macroCommand (arguments inMacro)) (macroCommand (arguments' inMacro)) := by
  have hone : 1 ≤ c.rest.length := Cursor.length_pos_of_peek hdollar
  have hnext := hc.trans (Cursor.le_advance hone)
  rw [macroCommand, macroCommand, copies_here_bind, copies_take_bind hone,
    copies_skipTrivia_bind hnext]
  refine (macroName_copies (hnext.trans (Cursor.le_skipTrivia _))).bind fun name d hd => ?_
  refine (harguments inMacro d hd).bind fun args d hd => ?_
  have hstart : (shift e.bytes name).span.start = name.span.start + e.bytes := by
    rw [MacroName.span_shift]
    rfl
  refine copies_commandEnd_bind hstart fun stop => (Copies.span rfl rfl hd).bind
    fun place d hd => ?_
  rw [← Argument.allShifted_eq]
  exact .pure (⟨name, args, place⟩ : MacroCommand) hd

/-- Run clauses are copied. -/
theorem runClause_copies {start : Cursor} (inMacro : Bool) (hc : e.start ≤ c) :
    Copies e s c (runClause arguments inMacro start)
      (runClause arguments' inMacro (e.place start)) := by
  have hnext := hc.trans c.le_skipTrivia
  have hclause : ∀ (subcommand : Subcommand) d, e.start ≤ d →
      Copies e s d (do return (⟨subcommand, ← span start.offset subcommand.span.stop⟩ : RunClause))
        (do return ⟨shift e.bytes subcommand,
          ← span (e.place start).offset (shift e.bytes subcommand).span.stop⟩) := by
    intro subcommand d hd
    have hstop : (shift e.bytes subcommand).span.stop = subcommand.span.stop + e.bytes := by
      rw [Subcommand.span_shift]
      rfl
    exact (Copies.span rfl hstop hd).bind fun place d hd =>
      .pure (⟨subcommand, place⟩ : RunClause) hd
  rw [runClause, runClause, copies_skipTrivia_bind hc, copies_here_bind,
    place_peek_beq (by decide)]
  split
  · rename_i hdollar
    have hcommand : Copies e s c.skipTrivia
        (Subcommand.macroCommand <$> macroCommand (arguments true))
        (Subcommand.macroCommand <$> macroCommand (arguments' true)) :=
      (macroCommand_copies harguments true (beq_iff_eq.mp hdollar) hnext).map fun _ => rfl
    exact hcommand.bind hclause
  · have hcommand : Copies e s c.skipTrivia (subcommandOf <$> command (arguments inMacro))
        (subcommandOf <$> command (arguments' inMacro)) :=
      (command_copies harguments inMacro hnext).map fun command =>
        subcommandOf_shift command e.bytes
    exact hcommand.bind hclause

end Commands

/-! ### Run clauses -/

/-- Giving an error of a clause the rest of its line keeps the copy. -/
theorem wideningTooDeep_copies {start : Cursor} {clause clause' : Parser RunClause}
    (hstart : e.start ≤ start) (h : Copies e s c clause clause') :
    Copies e s c (wideningTooDeep start clause) (wideningTooDeep (e.place start) clause') := by
  have htrimmed : Scan.trimmedStatement (e.place start).rest =
      Scan.trimmedStatement start.rest :=
    Scan.trimmedStatement_append (Embedding.ends_of_le hstart)
  have hlen := (Scan.trimmedStatement_le_statement start.rest).trans
    (Scan.statement_le_length start.rest)
  refine h.orElse fun error => ?_
  have hcause : (shift e.bytes error).cause = error.cause := rfl
  have hsame : ((shift e.bytes error).span.start == (e.place start).offset) =
      (error.span.start == start.offset) := by
    change (error.span.start + e.bytes == start.offset + e.bytes) = _
    simp
  rw [hcause, hsame, htrimmed]
  split
  · split
    · exact .failAt rfl (Embedding.place_offsetAfter hlen)
    · exact .fail error
  · exact .fail error

/-- Arguments are copied, whatever room for nesting is left. -/
theorem arguments_copies (room : Nat) (inMacro : Bool) (hc : e.start ≤ c) :
    Copies e s c (arguments room inMacro) (arguments room inMacro) := by
  induction room generalizing inMacro c with
  | zero =>
      rw [arguments_zero, argumentsOf, copies_here_bind]
      refine argumentList_copies (fun c hc hne => ?_) hc
        (Nat.succ_le_succ (Embedding.length_le_place c))
      exact argument_copies (fun start d hstart hne _ =>
        wideningTooDeep_copies hstart (tooDeep_copies hne)) hc hne
  | succ room ih =>
      rw [arguments_succ, argumentsOf, copies_here_bind]
      refine argumentList_copies (fun c hc hne => ?_) hc
        (Nat.succ_le_succ (Embedding.length_le_place c))
      exact argument_copies (fun start d hstart _ hd =>
        wideningTooDeep_copies hstart (runClause_copies (fun _ _ => ih _) inMacro hd)) hc hne

end Mcfunction.Parser
