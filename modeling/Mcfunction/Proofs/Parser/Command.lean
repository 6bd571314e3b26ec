import Mcfunction.Proofs.Parser.Container

/-!
# What the Parsers of Arguments and Commands Read

Here the two modes part: in tolerant mode each argument recovers on its own. Up to the first
error both do the same, and that error reaches the top of a strict parse as it was raised: a run
clause widens only the error about its own nesting, which no parser has logged before.

## Main results

* `argument_reads`, `argumentList_reads`: one argument, and the arguments up to the end of the
  statement.
* `arguments_reads`: the arguments of a command, with run clauses nested to any depth.
-/

namespace Mcfunction.Parser

variable {limit room n : Nat} {s : Settings} {c d origin : Cursor} {inMacro : Bool}

/-! ### Arguments without commands inside -/

/-- A selector is read in lockstep. -/
theorem selector_reads (room : Nat) (hat : c.peek = some '@') :
    Reads limit c c (selector (containers room)) (SelectorAt room c) := by
  rw [selector, reads_here_bind]
  rcases htarget : (c.advance 1).peek.bind SelectorTarget.ofChar? with _ | target
  · obtain ⟨tail, hrest⟩ := List.head?_eq_some_iff.mp hat
    have hlen : 1 + Scan.run Scan.isWordChar (c.rest.drop 1) ≤ c.rest.length := by
      have := Scan.run_le_length Scan.isWordChar tail
      rw [hrest, List.drop_succ_cons, List.drop_zero, List.length_cons]
      omega
    dsimp only
    rw [Cursor.offsetAfter,
      reads_bind_iff fun _ => sliceText_run c.offset_eq_advance_zero (Nat.zero_le _) hlen]
    exact .failAt le_rfl (Cursor.le_advance hlen) rfl rfl
  · have hlen := (inline_target hat htarget).le_length
    dsimp only
    rw [reads_take_bind hlen, reads_here_bind]
    by_cases hfilter : (c.advance 2).peek = some '['
    · rw [if_pos (by simpa using hfilter), map_bind]
      refine ((list_reads room hfilter).weaken (Cursor.le_advance hlen)).bind fun filter d h => ?_
      rw [reads_spanFrom_bind ((Cursor.le_advance hlen).trans h.placed.le)]
      exact .pure (.filtered hat htarget h)
    · rw [if_neg (by simpa using hfilter), pure_eq, reads_pure_bind,
        reads_spanFrom_bind (Cursor.le_advance hlen)]
      exact .pure (.target hat htarget hfilter)

/-- A fake player is read with its name. -/
theorem fakePlayer_run (h : Scan.fakePlayer c.rest = some n) :
    fakePlayer s c = .done (c.fakePlayer n) [] (c.advance n) := by
  obtain ⟨name, k, hrest, rfl, hline⟩ := Scan.fakePlayer_eq_some h
  have hlen : k + 1 ≤ c.rest.length := by
    rw [hrest]
    exact Nat.succ_le_succ hline.le_length
  rw [fakePlayer, bind_done here_run]
  simp only [h]
  rw [bind_done (take_run hlen), bind_done here_run,
    bind_done (sliceText_run (Cursor.advance_one_offset hrest rfl).symm (by omega) hlen),
    bind_done (spanFrom_run (Cursor.le_advance hlen))]
  rfl

/-- A fake player is read or refused whatever the settings are. -/
theorem fakePlayer_steady (horigin : Within origin c) :
    Steady origin c fakePlayer (fun player d => ∃ n, Scan.fakePlayer c.rest = some n ∧
      player = c.fakePlayer n ∧ d = c.advance n) := by
  rcases hname : Scan.fakePlayer c.rest with _ | n
  · rw [fakePlayer, steady_bind_iff fun _ => here_run]
    simp only [hname]
    exact unexpected_steady horigin
  · exact .of_done (fun _ => fakePlayer_run hname) ⟨n, rfl, rfl, rfl⟩

/-- What starts an interpolated key starts an interpolated argument as well. -/
theorem startsInterpolated_of_key {chars : List Char} (h : Scan.startsInterpolated true chars) :
    Scan.startsInterpolated false chars := by
  by_cases hquoted : Scan.startsQuoted chars
  · rw [Scan.startsInterpolated, if_pos hquoted] at h ⊢
    exact h
  · rw [Scan.startsInterpolated, if_neg hquoted] at h ⊢
    -- the run of the key ends at a `$`, which ends the run of the argument too
    clear hquoted
    induction chars with
    | nil => exact h
    | cons x chars ih =>
        rw [Scan.run_cons] at h ⊢
        by_cases hx : Scan.isLeadChar true x
        · have hx' : Scan.isLeadChar false x := by
            simp only [Scan.isLeadChar, Bool.or_eq_true, Bool.and_eq_true] at hx ⊢
            rcases hx with hx | hx
            · exact .inl hx
            · exact .inr ⟨hx.1, rfl⟩
          rw [if_pos hx, List.drop_succ_cons] at h
          rw [if_pos hx', List.drop_succ_cons]
          exact ih h
        · rw [if_neg hx, List.drop_zero] at h
          obtain ⟨body, heq⟩ := Scan.startsInterpolation_iff.mp h
          obtain ⟨rfl, rfl⟩ := List.cons.inj heq
          rfl

/-- What starts no text with interpolations starts none in a key either. -/
theorem startsInterpolated_key_eq_false {chars : List Char}
    (h : Scan.startsInterpolated false chars = false) :
    Scan.startsInterpolated true chars = false := by
  rw [Bool.eq_false_iff] at h ⊢
  exact fun hkey => h (startsInterpolated_of_key hkey)

section Arguments

variable {run : Cursor → Parser RunClause} {runAt : Cursor → Cursor → RunClause → Cursor → Prop}

/-- A quoted argument is read in lockstep: a string, or a path that starts with one. -/
theorem stringOrPath_reads (hplain : Scan.startsInterpolated false c.rest = false)
    (hquoted : Scan.startsQuoted c.rest) :
    Reads limit c c (stringOrPath (containers room)) (ArgumentAt room runAt inMacro c) := by
  rw [stringOrPath]
  refine (quotedString_steady (.refl c) hquoted).reads.bind ?_
  rintro _ _ ⟨q, hq, rfl, rfl⟩
  rw [reads_here_bind]
  by_cases hsuffix : startsPathSuffix (c.advance q.count).rest
  · rw [if_pos hsuffix]
    have hkey : KeyAt c (.plain (c.quotedString q)) (c.advance q.count) :=
      .quoted (startsInterpolated_key_eq_false hplain) hquoted hq
    exact (pathFrom_reads hkey hsuffix).bind fun _ _ h => .pure (.path h)
  · rw [if_neg hsuffix]
    exact .pure (.quoted hplain hquoted hq)

variable (hrun : ∀ c d, c < d → Reads limit c d (run c) (runAt c d))

include hrun

/-- An argument that starts with a word is read in lockstep. -/
theorem wordArgument_reads (hplain : Scan.startsInterpolated false c.rest = false)
    (hquoted : Scan.startsQuoted c.rest = false) (hword : Scan.word c.rest = some n) :
    Reads limit c c (wordArgument (containers room) run n) (ArgumentAt room runAt inMacro c) := by
  have hlen := (Scan.inline_word hword).le_length
  rw [wordArgument, reads_here_bind]
  dsimp only
  by_cases hsuffix : startsPathSuffix (c.rest.drop n)
  · rw [if_pos hsuffix, reads_bind_iff fun _ => bareString_run hlen]
    have hkey : KeyAt c (.plain (c.bareString n)) (c.advance n) :=
      .bare (startsInterpolated_key_eq_false hplain) hquoted hword
    refine (pathFrom_reads hkey (by rwa [Cursor.advance_rest])).bind fun _ _ h => .pure (.path h)
  · rw [if_neg hsuffix, reads_bind_iff fun _ => textRun_run hlen]
    split
    · rename_i htext
      refine .pure (.boolean hword ?_)
      exact htext
    · rename_i htext
      refine .pure (.boolean hword ?_)
      exact htext
    · rename_i htext
      by_cases hsub : startsSubcommand (c.rest.drop n)
      · rw [if_pos hsub]
        exact (hrun _ _ (Cursor.lt_advance (Scan.word_pos hword) hlen)).bind fun _ _ h =>
          .pure (.run hword htext hsub h)
      · rw [if_neg hsub]
        have htext : c.textBetween 0 n = "run" := htext
        refine .pure (.keyword hword ?_ ?_ fun _ => by simpa using hsub)
        · rw [htext]
          decide
        · rw [htext]
          decide
    · rename_i htrue hfalse hno
      exact .pure (.keyword hword htrue hfalse fun h => absurd h hno)

/-- Any other argument without interpolations is read in lockstep. -/
theorem plainArgument_reads (hplain : Scan.startsInterpolated false c.rest = false)
    (hquoted : Scan.startsQuoted c.rest = false) :
    Reads limit c c (plainArgument (containers room) run) (ArgumentAt room runAt inMacro c) := by
  rw [plainArgument, reads_here_bind]
  split
  · refine (coordinates_steady (.refl c)).reads.bind ?_
    rintro _ _ ⟨ranges, h, rfl, rfl⟩
    exact .pure (.coordinates h)
  · split
    · rename_i space hspace
      obtain ⟨hword, tail, hcolon⟩ := Scan.resourceNamespace_eq_some hspace
      split
      · rename_i path hpath
        refine (reads_bind_iff fun _ => resourceLocation_run hspace hpath).mpr ?_
        exact .pure (.resource hspace hpath)
      · have hlen : space + 1 ≤ c.rest.length :=
          ((Scan.inline_word hword).add (hcolon ▸ .one (by decide))).le_length
        rw [Cursor.offsetAfter, reads_bind_iff fun _ =>
          sliceText_run c.offset_eq_advance_zero (Nat.zero_le _) (Nat.le_of_succ_le hlen)]
        exact .failAt le_rfl (Cursor.le_advance hlen) rfl rfl
    · split
      · rename_i n suffix hnumber
        refine (reads_bind_iff fun _ => number_run hnumber).mpr ?_
        exact .pure (.number hnumber)
      · rename_i n _ hword
        exact wordArgument_reads hrun hplain hquoted hword
      · exact (unexpected_steady (.refl c)).reads

/-- An argument is read in lockstep. -/
theorem argument_reads (c : Cursor) :
    Reads limit c c (argument (containers room) run inMacro) (ArgumentAt room runAt inMacro c) := by
  rw [argument, reads_here_bind]
  by_cases hinterpolated : Scan.startsInterpolated false c.rest
  · rw [if_pos hinterpolated, interpolatedArgument]
    refine Steady.reads ?_
    refine (interpolated_steady (.refl c) hinterpolated).bind fun argument d h => ?_
    split
    · rename_i hmacro
      exact .pure (.interpolated hmacro hinterpolated h)
    · exact .fail ⟨c, d, .refl c, h.placed.le, h.placed.span_eq⟩
  · rw [if_neg hinterpolated]
    rw [Bool.not_eq_true] at hinterpolated
    have hcoordinates : Reads limit c c
        (coordinates >>= fun triple => Pure.pure (.coordinates triple))
        (ArgumentAt room runAt inMacro c) := by
      refine (coordinates_steady (.refl c)).reads.bind ?_
      rintro _ _ ⟨ranges, h, rfl, rfl⟩
      exact .pure (.coordinates h)
    split
    · exact hcoordinates
    · exact hcoordinates
    · rename_i hpeek
      exact stringOrPath_reads hinterpolated (startsQuoted_of_peek hpeek (.inl rfl))
    · rename_i hpeek
      exact stringOrPath_reads hinterpolated (startsQuoted_of_peek hpeek (.inr rfl))
    · rename_i hpeek
      exact (selector_reads room hpeek).bind fun _ _ h => .pure (.selector h)
    · rename_i hpeek
      exact (list_reads room hpeek).bind fun _ _ h => .pure (.list h)
    · rename_i hpeek
      exact (compound_reads room hpeek).bind fun _ _ h => .pure (.compound h)
    · refine (fakePlayer_steady (.refl c)).reads.bind ?_
      rintro _ _ ⟨n, hname, rfl, rfl⟩
      exact .pure (.fakePlayer hname)
    · rename_i hdouble hsingle _ _ _ _
      refine plainArgument_reads hrun hinterpolated ?_
      rw [Bool.eq_false_iff]
      intro hquoted
      obtain ⟨body, hrest | hrest⟩ := Scan.startsQuoted_iff.mp hquoted
      · exact hdouble (Cursor.peek_of_cons hrest)
      · exact hsingle (Cursor.peek_of_cons hrest)

end Arguments

/-! ### The arguments of a command -/

/-- An argument that is read is no placeholder. -/
theorem isPlaceholder_eq_false {runAt : Cursor → Cursor → RunClause → Cursor → Prop}
    {argument : Argument} (h : ArgumentAt room runAt inMacro c argument d) :
    isPlaceholder argument = false := by
  cases h <;> rfl

/-- The error for a missing separator is the same whatever the settings are. -/
theorem missingSeparator_steady {α : Type} {post : α → Cursor → Prop} (c : Cursor) :
    Steady c c missingSeparator post := by
  rw [missingSeparator, steady_bind_iff fun _ => here_run]
  exact .failAt (.refl c) (Cursor.le_advance (Scan.chunk_le_length _)) rfl rfl

/-- An argument that stands apart from what is before it, or else its placeholder. -/
theorem argumentOrPlaceholder_reads {argument : Parser Argument}
    {argumentAt : Cursor → Argument → Cursor → Prop} (glued : Bool)
    (hline : Scan.atLineEnd c.rest = false) (hargument : Reads limit c c argument (argumentAt c)) :
    Reads limit c c (orPlaceholder (if glued = true then missingSeparator else argument) .error)
      (fun first d => glued = false ∧ argumentAt c first d ∨
        ∃ node, first = .error node ∧ PlaceholderAt c node d) := by
  refine orPlaceholder_reads hline ?_ fun node _ h => .inr ⟨node, rfl, h⟩
  rcases glued with _ | _
  · exact hargument.mono le_rfl fun _ _ h => .inl ⟨rfl, h⟩
  · exact (missingSeparator_steady c).reads

/-- An argument or its placeholder takes at least one character, so the loop ends. -/
theorem argumentList_reads {argument : Parser Argument}
    {argumentAt : Cursor → Argument → Cursor → Prop} {afterError : Bool} {fuel : Nat}
    (hplaced : ∀ c value d, argumentAt c value d → Placed c value.span d)
    (hplaceholder : ∀ c value d, argumentAt c value d → isPlaceholder value = false)
    (hargument : ∀ c, Reads limit c c argument (argumentAt c)) (horigin : origin ≤ c)
    (hfuel : c.rest.length < fuel) :
    Reads limit origin c (argumentList argument afterError fuel)
      (ArgumentListAt argumentAt afterError c) := by
  induction fuel generalizing c afterError with
  | zero => exact absurd hfuel (Nat.not_lt_zero _)
  | succ fuel ih =>
      rw [argumentList, reads_here_bind, reads_skipTrivia_bind, reads_here_bind]
      by_cases hline : Scan.atLineEnd c.skipTrivia.rest
      · rw [if_pos hline, reads_moveTo_bind]
        exact .pure (.nil hline)
      · rw [if_neg hline]
        rw [Bool.not_eq_true] at hline
        dsimp only
        generalize hglued : (c.skipTrivia.offset == c.offset && !afterError &&
          c.skipTrivia.peek != some '[' && c.skipTrivia.peek != some '{') = glued
        have hopener : glued = false → c.skipTrivia = c → afterError = false →
            c.peek = some '[' ∨ c.peek = some '{' := by
          rintro rfl hsame rfl
          rw [hsame] at hglued
          simpa [← or_iff_not_imp_left] using hglued
        have hfirst := argumentOrPlaceholder_reads glued hline (hargument c.skipTrivia)
        have hstart := c.le_skipTrivia
        refine (hfirst.weaken (horigin.trans hstart)).bind ?_
        have hnext : ∀ {span d afterError}, Placed c.skipTrivia span d →
            Reads limit origin d (argumentList argument afterError fuel)
              (ArgumentListAt argumentAt afterError d) := by
          intro span d afterError h
          have := Cursor.length_lt_of_lt (hstart.trans_lt h.lt)
          exact ih ((horigin.trans hstart).trans h.le) (by omega)
        rintro first d (⟨hnot, h⟩ | ⟨node, rfl, h⟩)
        · rw [hplaceholder _ _ _ h]
          exact (hnext (hplaced _ _ _ h)).bind fun _ _ htail =>
            .pure (.cons hline (hopener hnot) h htail)
        · exact (hnext h.placed).bind fun _ _ htail => .pure (.error hline h htail)

/-! ### Commands -/

/-- The name of a command is read. -/
theorem commandName_run (h : Scan.commandName c.rest = some n) :
    commandName s c = .done (c.textRun n) [] (c.advance n) := by
  rw [commandName, bind_done here_run, h]
  exact textRun_run (Scan.inline_commandName h).le_length

/-- The name of a command is read or refused whatever the settings are. -/
theorem commandName_steady (horigin : Within origin c) :
    Steady origin c commandName (fun name d => ∃ n, Scan.commandName c.rest = some n ∧
      name = c.textRun n ∧ d = c.advance n) := by
  rcases hname : Scan.commandName c.rest with _ | n
  · rw [commandName, steady_bind_iff fun _ => here_run, hname]
    exact unexpected_steady horigin
  · exact .of_done (fun _ => commandName_run hname) ⟨n, rfl, rfl, rfl⟩

/-- The end of a command is only looked up. -/
theorem still_commandEnd (start : Nat) (arguments : List Argument) :
    Still (commandEnd start arguments) := by
  rw [commandEnd]
  split
  · exact .pure _
  · exact .bind .here fun _ => .pure _

/-- A command ends where its last argument does, without a fault. -/
theorem commandEnd_run {argumentsAt : Cursor → List Argument → Cursor → Prop}
    {arguments : List Argument} {start : Nat} (hplaced : ArgumentsPlaced argumentsAt)
    (h : argumentsAt c arguments d) (hstart : start ≤ d.offset) :
    commandEnd start arguments s d = .done d.offset [] d := by
  rw [commandEnd]
  rcases hlast : arguments.getLast? with _ | last
  · dsimp only
    rw [bind_done here_run, max_eq_left hstart]
    rfl
  · dsimp only
    rw [hplaced.last h hlast, max_eq_left hstart]
    rfl

/-- The name of a macro command is read where it stands. -/
theorem macroName_steady (c : Cursor) : Steady c c macroName (MacroNameAt c) := by
  rw [macroName, steady_bind_iff fun _ => here_run]
  split
  · rename_i hstart
    refine (interpolation_steady (.refl c) hstart).bind ?_
    rintro _ _ ⟨n, hn, rfl, rfl⟩
    exact .pure (.interpolation hstart hn)
  · split
    · refine (commandName_steady (.refl c)).bind ?_
      rintro _ _ ⟨n, hname, rfl, rfl⟩
      exact .pure (.literal hname)
    · exact unexpected_steady (.refl c)

/-- What a run clause makes of a command stands where the command does. -/
theorem subcommandOf_span (command : Command) : (subcommandOf command).span = command.span := by
  rw [subcommandOf]
  split <;> rfl

section Commands

variable {arguments : Bool → Parser (List Argument)}
  {argumentsAt : Bool → Cursor → List Argument → Cursor → Prop}
  (hplaced : ∀ inMacro, ArgumentsPlaced (argumentsAt inMacro))
  (harguments : ∀ inMacro c, Reads limit c c (arguments inMacro) (argumentsAt inMacro c))

include hplaced harguments

/-- A command is read in lockstep if its arguments are. -/
theorem command_reads (inMacro : Bool) (c : Cursor) :
    Reads limit c c (command (arguments inMacro)) (CommandAt (argumentsAt inMacro) c) := by
  rw [command, reads_here_bind]
  refine (commandName_steady (.refl c)).reads.bind ?_
  rintro _ _ ⟨n, hname, rfl, rfl⟩
  have hle := Cursor.le_advance (Scan.inline_commandName hname).le_length
  refine ((harguments inMacro _).weaken hle).bind fun args d h => ?_
  have hd := hle.trans ((hplaced inMacro).within h).le
  have hoffset := Cursor.offset_le_of_le hd
  rw [reads_bind_iff fun _ => commandEnd_run (hplaced inMacro) h hoffset,
    reads_bind_iff fun _ => span_run hoffset]
  exact .pure (.mk hname h)

/-- A macro command is read in lockstep if its arguments are. -/
theorem macroCommand_reads (inMacro : Bool) (hdollar : c.peek = some '$') :
    Reads limit c c (macroCommand (arguments inMacro))
      (MacroCommandAt (argumentsAt inMacro) c) := by
  have hstart := (Within.peek hdollar (by decide)).1.le.trans (Cursor.le_skipTrivia _)
  rw [macroCommand, reads_here_bind, reads_take_bind (Cursor.length_pos_of_peek hdollar),
    reads_skipTrivia_bind]
  refine ((macroName_steady _).reads.weaken hstart).bind fun name d hname => ?_
  have hd := hstart.trans hname.placed.le
  refine ((harguments inMacro _).weaken hd).bind fun args e h => ?_
  have he := ((hplaced inMacro).within h).le
  have hspan : name.span.start = (c.advance 1).skipTrivia.offset := by
    rw [hname.placed.span_eq]
    rfl
  rw [hspan, reads_bind_iff fun _ => commandEnd_run (hplaced inMacro) h
      (Cursor.offset_le_of_le (hname.placed.le.trans he)),
    reads_bind_iff fun _ => span_run (Cursor.offset_le_of_le (hd.trans he))]
  exact .pure (.mk hdollar hname h)

/-- What follows a `run` at an earlier place. -/
theorem runClause_reads {start : Cursor} (hstart : start ≤ c) :
    Reads limit c c (runClause arguments inMacro start)
      (RunClauseAt argumentsAt inMacro start c) := by
  have hle := c.le_skipTrivia
  have hspan : ∀ {span d}, Placed c.skipTrivia span d → span.stop = d.offset ∧
      start.offset ≤ d.offset := by
    intro span d h
    rw [h.span_eq]
    exact ⟨rfl, Cursor.offset_le_of_le ((hstart.trans hle).trans h.le)⟩
  rw [runClause, reads_skipTrivia_bind, reads_here_bind]
  by_cases hdollar : c.skipTrivia.peek = some '$'
  · rw [if_pos (by simpa using hdollar), map_bind]
    refine ((macroCommand_reads hplaced harguments true hdollar).weaken hle).bind
      fun command d h => ?_
    obtain ⟨hstop, hd⟩ := hspan (h.placed (hplaced true))
    have hend : (Subcommand.macroCommand command).span.stop = d.offset := hstop
    dsimp only
    rw [hend, reads_bind_iff fun _ => span_run hd]
    exact .pure (.macroCommand h)
  · rw [if_neg (by simpa using hdollar), map_bind]
    refine ((command_reads hplaced harguments inMacro _).weaken hle).bind fun command d h => ?_
    obtain ⟨hstop, hd⟩ := hspan (h.placed (hplaced inMacro))
    dsimp only
    rw [subcommandOf_span, hstop, reads_bind_iff fun _ => span_run hd]
    exact .pure (.command h)

end Commands

/-! ### Run clauses -/

section RunClauses

variable {start : Cursor} {clause : Parser RunClause} {post : RunClause → Cursor → Prop}

/-- An error that does not start at the `run` is not widened. -/
theorem wideningTooDeep_failed {error : ParseError} {log : List Event}
    (h : clause s c = .failed error log) (hne : error.span.start ≠ start.offset) :
    wideningTooDeep start clause s c = .failed error log := by
  rw [wideningTooDeep, orElse, h]
  simp only [beq_eq_false_iff_ne.mpr hne, Bool.false_eq_true, if_false]
  cases error.cause <;> exact congrArg (Outcome.failed error) (List.append_nil log)

/-- An error of a run clause stays what it is, or it is widened to reach from the `run` to the
end of the statement. -/
theorem exists_wideningTooDeep_failed {error : ParseError} {log : List Event}
    (h : clause s c = .failed error log) :
    ∃ error', wideningTooDeep start clause s c = .failed error' log ∧
      error'.cause = error.cause ∧ (error' = error ∨
        error'.span = start.spanTo (start.advance (Scan.trimmedStatement start.rest))) := by
  have hle : start ≤ start.advance (Scan.trimmedStatement start.rest) :=
    Cursor.le_advance ((Scan.trimmedStatement_le_statement start.rest).trans
      (Scan.statement_le_length start.rest))
  have hsame : (fail error : Parser RunClause) s c = .failed error [] := rfl
  rw [wideningTooDeep, orElse, h]
  obtain ⟨cause, span⟩ := error
  cases cause with
  | nestingTooDeep deepest =>
      dsimp only
      split
      · rw [Cursor.offsetAfter, failAt_run (Cursor.offset_le_of_le hle), Outcome.after_failed,
          List.append_nil]
        exact ⟨_, rfl, rfl, .inr rfl⟩
      · rw [hsame, Outcome.after_failed, List.append_nil]
        exact ⟨_, rfl, rfl, .inl rfl⟩
  | _ =>
      dsimp only
      rw [hsame, Outcome.after_failed, List.append_nil]
      exact ⟨_, rfl, rfl, .inl rfl⟩

/-- The errors of a run clause that is not too deep itself start after its `run`, and so none
of them is widened. -/
theorem wideningTooDeep_reads (hlt : start < c) (h : Reads limit c c clause post) :
    Reads limit start c (wideningTooDeep start clause) post := by
  have hsame : ∀ {s error log}, ParseError.From c error → clause s c = .failed error log →
      wideningTooDeep start clause s c = .failed error log := by
    rintro s error log ⟨a, b, hca, -, hspan⟩ hfailed
    have hstart : error.span.start = a.offset := by
      rw [hspan]
      rfl
    have hlt' := Cursor.offset_lt_of_lt (hlt.trans_le hca)
    exact wideningTooDeep_failed hfailed (by omega)
  have hdone : ∀ {s value log next}, clause s c = .done value log next →
      wideningTooDeep start clause s c = .done value log next := by
    intro s value log next hdone
    rw [wideningTooDeep, orElse, hdone]
  refine Outcome.Lockstep.mono ?_ hlt.le fun _ _ h => h
  unfold Reads at h
  generalize hs : clause ⟨limit, .strict⟩ c = strict at h
  generalize ht : clause ⟨limit, .tolerant⟩ c = tolerant at h
  cases h with
  | done hlog hvalue =>
      rw [hdone hs, hdone ht]
      exact .done hlog hvalue
  | failed hlog herror =>
      rw [hsame herror hs, hsame herror ht]
      exact .failed hlog herror
  | recovered herror hlog hsound =>
      rw [hsame herror hs]
      cases hsound with
      | done hvalue =>
          rw [hdone ht]
          exact .recovered herror hlog (.done hvalue)
      | failed herror' =>
          rw [hsame herror' ht]
          exact .recovered herror hlog (.failed herror')

/-- A run clause that is too deep itself is reported up to the end of its statement. -/
theorem wideningTooDeep_tooDeep_reads :
    Reads limit start c (wideningTooDeep start (tooDeep start)) post := by
  have hlen := (Scan.trimmedStatement_le_statement start.rest).trans
    (Scan.statement_le_length start.rest)
  have hspan : start.offset ≤ (start.advance (Scan.trimmedStatement start.rest)).offset :=
    Cursor.offset_le_of_le (Cursor.le_advance hlen)
  have hrun : ∀ mode, wideningTooDeep start (tooDeep start) ⟨limit, mode⟩ c =
      .failed ⟨.nestingTooDeep limit,
        start.spanTo (start.advance (Scan.trimmedStatement start.rest))⟩ [] := by
    intro mode
    rw [wideningTooDeep, orElse, tooDeep_run]
    dsimp only
    rw [if_pos (beq_self_eq_true _), Cursor.offsetAfter, failAt_run hspan]
    rfl
  exact .of_failed hrun ⟨start, _, le_rfl, Cursor.le_advance hlen, rfl⟩

end RunClauses

/-- Arguments are read in lockstep if their run clauses are. -/
theorem argumentsOf_reads {inside : Containers} {clause : Cursor → Parser RunClause}
    {argumentAt : Cursor → Argument → Cursor → Prop}
    (hplaced : ∀ c value d, argumentAt c value d → Placed c value.span d)
    (hplaceholder : ∀ c value d, argumentAt c value d → isPlaceholder value = false)
    (hargument : ∀ c, Reads limit c c
      (argument inside (fun start => wideningTooDeep start (clause start)) inMacro)
      (argumentAt c)) (c : Cursor) :
    Reads limit c c (argumentsOf inside clause inMacro) (ArgumentListAt argumentAt false c) := by
  rw [argumentsOf, reads_here_bind]
  exact argumentList_reads hplaced hplaceholder hargument le_rfl (Nat.lt_succ_self _)

/-- On the last level there is no room for a run clause. -/
theorem arguments_zero (inMacro : Bool) :
    arguments 0 inMacro = argumentsOf (containers 0) tooDeep inMacro := by
  funext s c
  rw [arguments]

/-- Every other level has run clauses with arguments of the level below. -/
theorem arguments_succ (room : Nat) (inMacro : Bool) :
    arguments (room + 1) inMacro =
      argumentsOf (containers (room + 1)) (runClause (arguments room) inMacro) inMacro := by
  funext s c
  rw [arguments]

/-- With any number of levels left, arguments are read with the containers of that level. -/
theorem exists_arguments_eq (room : Nat) (inMacro : Bool) :
    ∃ clause, arguments room inMacro = argumentsOf (containers room) clause inMacro := by
  cases room with
  | zero => exact ⟨tooDeep, arguments_zero inMacro⟩
  | succ room => exact ⟨runClause (arguments room) inMacro, arguments_succ room inMacro⟩

/-- An argument of a command in which a run clause is too deep. -/
theorem argument_zero_reads (c : Cursor) :
    Reads limit c c
      (argument (containers 0) (fun start => wideningTooDeep start (tooDeep start)) inMacro)
      (ArgumentAt 0 (fun _ _ _ _ => False) inMacro c) :=
  argument_reads (fun _ _ _ => wideningTooDeep_tooDeep_reads) c

/-- An argument of a command, given the arguments of the commands in its run clauses. -/
theorem argument_succ_reads
    (harguments : ∀ inMacro c, Reads limit c c (arguments room inMacro)
      (ArgumentsAt room inMacro c)) (c : Cursor) :
    Reads limit c c
      (argument (containers (room + 1))
        (fun start => wideningTooDeep start (runClause (arguments room) inMacro start)) inMacro)
      (ArgumentAt (room + 1) (RunClauseAt (ArgumentsAt room) inMacro) inMacro c) := by
  refine argument_reads (fun start d hlt => ?_) c
  exact wideningTooDeep_reads hlt
    (runClause_reads (ArgumentsAt.argumentsPlaced room) harguments hlt.le)

/-- The arguments of a command with any number of levels left. -/
theorem arguments_reads (room : Nat) (inMacro : Bool) (c : Cursor) :
    Reads limit c c (arguments room inMacro) (ArgumentsAt room inMacro c) := by
  induction room generalizing inMacro c with
  | zero =>
      rw [arguments_zero]
      exact argumentsOf_reads (fun _ _ _ h => h.placed fun _ _ _ _ h => h.elim)
        (fun _ _ _ => isPlaceholder_eq_false) argument_zero_reads c
  | succ room ih =>
      have hrun := ArgumentsAt.argumentsPlaced room
      rw [arguments_succ]
      exact argumentsOf_reads (fun _ _ _ h => h.placed fun _ _ _ _ h => h.within hrun)
        (fun _ _ _ => isPlaceholder_eq_false) (argument_succ_reads ih) c

end Mcfunction.Parser
