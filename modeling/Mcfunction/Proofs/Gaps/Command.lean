import Mcfunction.Proofs.Gaps.Container
import Mcfunction.Proofs.Parser.Document

/-!
# Commands and Statements in Front of a Gap

A command that ends at a gap is the same with another gap there, and so is a whole statement. What
is looked at beyond the gap is the same with either: whether coordinates come next, whether a
`run` has a subcommand and whether the line has ended.

## Main results

* `arguments_local`: the arguments of a command, with any number of levels left.
* `anyStatement_local`: statements.
-/

namespace Mcfunction

variable {seam : Seam} {s : Settings} {c d : Cursor} {n room limit : Nat}

namespace Scan

variable {gap after : List Char}

/-- Whether a path suffix starts in front of a gap does not depend on the gap. -/
theorem Separates.startsPathSuffix_append (h : Separates gap after) (chars : List Char) :
    Parser.startsPathSuffix (chars ++ (gap ++ after)) = Parser.startsPathSuffix chars := by
  rcases chars with _ | ⟨x, chars⟩
  · obtain ⟨x, rest, htail, hx⟩ := h.exists_cons
    rcases isGapChar_iff.mp hx with rfl | rfl | rfl | rfl <;> rw [List.nil_append, htail] <;> rfl
  · by_cases hpoint : x = '.' <;> by_cases hsquare : x = '[' <;> by_cases hcurly : x = '{' <;>
      simp [Parser.startsPathSuffix, hpoint, hsquare, hcurly]

end Scan

/-- Whether an argument in this place is glued to what is before it. -/
def Parser.glued (c : Cursor) (afterError : Bool) : Bool :=
  c.skipTrivia.offset == c.offset && !afterError && c.skipTrivia.peek != some '[' &&
    c.skipTrivia.peek != some '{'

namespace Seam

/-- Over a character that starts no gap. -/
theorem place_advance_one {x : Char} (hpeek : c.peek = some x) (hx : Scan.isGapChar x = false) :
    (seam.place c).advance 1 = seam.place (c.advance 1) := by
  have hone : 1 ≤ c.rest.length := Cursor.length_pos_of_peek hpeek
  by_cases hc : c ≤ seam.cut
  · refine place_advance hone ?_
    obtain ⟨n, hn, hcut⟩ := Cursor.le_iff_exists_advance.mp hc
    rcases n with _ | n
    · obtain ⟨y, rest, hold, hy⟩ := seam.interchangeable.old_separates.exists_cons
      rw [Cursor.advance_zero] at hcut
      rw [← hcut, Cursor.peek, seam.rest_eq, hold] at hpeek
      exact absurd (Option.some.inj hpeek) (Scan.isGapChar_ne hy hx)
    · rw [hcut]
      exact Cursor.advance_le_advance (Nat.succ_pos n) hn
  · have hnext : ¬ c.advance 1 ≤ seam.cut := fun h => hc ((Cursor.le_advance hone).trans h)
    rw [place, if_neg hc, place, if_neg hnext]

/-- The name of a command at a place is the same with the other gap. -/
theorem place_commandName (c : Cursor) :
    Scan.commandName (seam.place c).rest = Scan.commandName c.rest :=
  seam.place_scan c fun h => h.commandName_append _

/-- Whether the line has ended after trivia. -/
theorem place_skipTrivia_atLineEnd (c : Cursor) :
    Scan.atLineEnd (seam.place c).skipTrivia.rest = Scan.atLineEnd c.skipTrivia.rest := by
  rw [Cursor.skipTrivia, Cursor.skipTrivia, Cursor.advance_rest, Cursor.advance_rest]
  obtain ⟨-, heq | ⟨x, rest, hleft, hright⟩⟩ :=
    (seam.facing c).drop_trivia seam.interchangeable
  · rw [heq]
  · rw [hleft, hright]
    rfl

/-- Whether an argument in front of the gap is glued does not depend on the gap. -/
theorem place_glued {afterError : Bool} (h : c.skipTrivia ≤ seam.cut) :
    Parser.glued (seam.place c) afterError = Parser.glued c afterError := by
  rw [Parser.glued, Parser.glued, place_skipTrivia h, place_peek_of_trivia c.trivia_skipTrivia,
    place_offset, place_offset]

/-- A word and what follows it. -/
theorem facing_drop_word (hword : Scan.word c.rest = some n) :
    Scan.Facing seam.old seam.new seam.after (c.rest.drop n) ((seam.place c).rest.drop n) :=
  (seam.facing c).drop seam.interchangeable (f := Scan.word) (fun h => h.word_append _)
    (fun h => (Scan.inline_word h).le_length) hword

end Seam

namespace Parser

/-! ### Arguments without commands inside -/

/-- Selectors in front of the gap do not depend on it. -/
theorem selector_local (hat : c.peek = some '@') :
    Local seam ⟨limit, .strict⟩ c (selector (containers room)) (selector (containers room)) := by
  have htarget : ((seam.place c).advance 1).peek.bind SelectorTarget.ofChar? =
      (c.advance 1).peek.bind SelectorTarget.ofChar? := by
    rw [Seam.place_advance_one hat (by decide), Seam.place_peek_bind (by decide)]
  rw [selector]
  refine .here_bind ?_
  rw [htarget]
  rcases hscan : (c.advance 1).peek.bind SelectorTarget.ofChar? with _ | target
  · exact .of_never (.andThen fun _ => .failAt)
  · have hlen := (inline_target hat hscan).le_length
    refine .take_bind hlen (.here_bind ?_)
    rw [Seam.place_peek_beq (by decide), Seam.place_offset]
    split
    · rename_i hopen
      exact (list_local rfl room (beq_iff_eq.mp hopen)).map.bind fun filter d _ =>
        (Local.spanFrom _).bind fun place d _ => .pure _
    · exact (Local.pure none).bind fun filter d _ =>
        (Local.spanFrom _).bind fun place d _ => .pure _

/-- Fake players in front of the gap do not depend on it. -/
theorem fakePlayer_local : Local seam s c fakePlayer fakePlayer := by
  have hsame : Scan.fakePlayer (seam.place c).rest = Scan.fakePlayer c.rest :=
    seam.place_scan c fun h => h.fakePlayer_append _
  rcases hscan : Scan.fakePlayer c.rest with _ | n
  · rw [fakePlayer]
    refine .here_bind ?_
    rw [hsame, hscan]
    exact .of_never unexpected_returns
  · obtain ⟨name, k, hrest, rfl, hline⟩ := Scan.fakePlayer_eq_some hscan
    have hlen : k + 1 ≤ c.rest.length := by
      rw [hrest]
      exact Nat.succ_le_succ hline.le_length
    refine .of_run (fakePlayer_run hscan) hlen fun h => ?_
    rw [fakePlayer_run (hsame.trans hscan), Seam.place_fakePlayer hlen h]

/-- What a quoted string turns out to be. -/
theorem stringOrPath_next_local (literal : StringLiteral) (d : Cursor) :
    let next : Parser Argument := do
      if startsPathSuffix (← here).rest then
        return .path (← pathFrom (containers room) (.plain literal))
      else return .string literal
    Local seam ⟨limit, .strict⟩ d next next := by
  refine .here_bind ?_
  rw [seam.place_scan d fun h => h.startsPathSuffix_append _]
  split
  · exact pathFrom_local.bind fun path d _ => .pure _
  · exact .pure _

/-- Quoted strings and paths in front of the gap do not depend on it. -/
theorem stringOrPath_local (hquoted : Scan.startsQuoted c.rest) :
    Local seam ⟨limit, .strict⟩ c (stringOrPath (containers room))
      (stringOrPath (containers room)) :=
  (quotedString_local hquoted).bind fun literal d _ => stringOrPath_next_local literal d

/-! ### Arguments -/

section Arguments

variable {run run' : Cursor → Parser RunClause} {inMacro : Bool}
  (hrun : ∀ start d, start ≤ d →
    Local seam ⟨limit, .strict⟩ d (run start) (run' (seam.place start)))

include hrun

/-- What a word in front of the gap is read as does not depend on the gap. -/
theorem wordArgument_local (hword : Scan.word c.rest = some n) :
    Local seam ⟨limit, .strict⟩ c (wordArgument (containers room) run n)
      (wordArgument (containers room) run' n) := by
  have hlen := (Scan.inline_word hword).le_length
  have hfacing : Scan.Facing seam.old seam.new seam.after _ _ := Seam.facing_drop_word hword
  have hsuffix : startsPathSuffix ((seam.place c).rest.drop n) =
      startsPathSuffix (c.rest.drop n) :=
    (hfacing.scan_eq seam.interchangeable fun h => h.startsPathSuffix_append _).symm
  rw [wordArgument, wordArgument]
  refine .here_bind ?_
  dsimp only
  rw [hsuffix, ← hfacing.startsSubcommand seam.interchangeable]
  split
  · exact (bareString_local hlen).bind fun name d _ =>
      pathFrom_local.bind fun path d _ => .pure _
  · refine (textRun_local hlen).bind fun word d hcd => ?_
    split
    · exact .pure _
    · exact .pure _
    · split
      · exact (hrun c d hcd).bind fun clause d _ => .pure _
      · exact .pure _
    · exact .pure _

/-- Arguments outside a macro that end in front of the gap do not depend on it. -/
theorem plainArgument_local :
    Local seam ⟨limit, .strict⟩ c (plainArgument (containers room) run)
      (plainArgument (containers room) run') := by
  rw [plainArgument, plainArgument]
  refine .here_bind ?_
  rw [← (seam.facing c).coordinates_isSome seam.interchangeable, Seam.place_resourceNamespace,
    Seam.place_wholeNumber, Seam.place_word]
  split
  · exact coordinates_local.bind fun coordinates d _ => .pure _
  · rcases hspace : Scan.resourceNamespace c.rest with _ | space
    · dsimp only
      split
      · rename_i hnumber
        exact (number_local hnumber).bind fun number d _ => .pure _
      · rename_i hword
        exact wordArgument_local hrun hword
      · exact .of_never unexpected_returns
    · dsimp only
      rw [Seam.place_path hspace]
      rcases hpath : Scan.path (c.rest.drop (space + 1)) with _ | path
      · exact .of_never (.andThen fun _ => .failAt)
      · exact (resourceLocation_local hspace hpath).bind fun location d _ => .pure _

/-- Arguments in front of the gap do not depend on it if run clauses do not. -/
theorem argument_local (c : Cursor) :
    Local seam ⟨limit, .strict⟩ c (argument (containers room) run inMacro)
      (argument (containers room) run' inMacro) := by
  have hplain : Local seam ⟨limit, .strict⟩ c (plainArgument (containers room) run)
      (plainArgument (containers room) run') := plainArgument_local hrun
  rw [argument, argument]
  simp only [interpolatedArgument]
  refine .here_bind (interpolated_or_local (fun argument d => ?_) ?_ fun hquote => ?_)
  · split
    · exact .pure _
    · exact .of_never .fail
  · rcases seam.place_peek_cases c with hsame | ⟨x, y, hx, hy, hgap, hgap'⟩
    · rw [hsame]
      split
      · exact coordinates_local.bind fun coordinates d _ => .pure _
      · exact coordinates_local.bind fun coordinates d _ => .pure _
      · rename_i hpeek
        exact stringOrPath_local (startsQuoted_of_peek hpeek (.inl rfl))
      · rename_i hpeek
        exact stringOrPath_local (startsQuoted_of_peek hpeek (.inr rfl))
      · rename_i hpeek
        exact (selector_local hpeek).bind fun selector d _ => .pure _
      · rename_i hpeek
        exact (list_local rfl room hpeek).bind fun list d _ => .pure _
      · rename_i hpeek
        exact (compound_local rfl room hpeek).bind fun compound d _ => .pure _
      · exact fakePlayer_local.bind fun player d _ => .pure _
      · exact hplain
    · rw [hx, hy]
      rcases Scan.isGapChar_iff.mp hgap with rfl | rfl | rfl | rfl <;>
        rcases Scan.isGapChar_iff.mp hgap' with rfl | rfl | rfl | rfl <;> exact hplain
  · obtain ⟨body, hrest | hrest⟩ := Scan.startsQuoted_iff.mp hquote
    · rw [Cursor.peek_of_cons hrest]
      exact ⟨_, _, rfl, stringOrPath_next_local⟩
    · rw [Cursor.peek_of_cons hrest]
      exact ⟨_, _, rfl, stringOrPath_next_local⟩

end Arguments

/-! ### The arguments of a command -/

/-- At the end of the line there are no more arguments. -/
theorem argumentList_run_nil {argument : Parser Argument} {afterError : Bool} {fuel : Nat}
    (hline : Scan.atLineEnd c.skipTrivia.rest) :
    argumentList argument afterError (fuel + 1) s c = .done [] [] c := by
  rw [argumentList, bind_done here_run, bind_done skipTrivia_run, bind_done here_run, if_pos hline]
  rfl

/-- Elsewhere an argument comes next. -/
theorem argumentList_run_cons {argument : Parser Argument} {afterError : Bool} {fuel : Nat}
    (hline : Scan.atLineEnd c.skipTrivia.rest = false) :
    argumentList argument afterError (fuel + 1) s c =
      (orPlaceholder (if glued c afterError then missingSeparator else argument) .error >>=
        fun first => do
          return first :: (← argumentList argument (isPlaceholder first) fuel)) s c.skipTrivia := by
  rw [argumentList, bind_done here_run, bind_done skipTrivia_run, bind_done here_run,
    if_neg (by simp [hline])]
  rfl

/-- In strict mode what is read is what the parser itself has read. -/
theorem orPlaceholder_eq_done {α : Type} {p : Parser α} {placeholder : ErrorNode → α} {value : α}
    {log : List Event} (hs : s.mode = .strict)
    (h : orPlaceholder p placeholder s c = .done value log d) : p s c = .done value log d := by
  refine orElse_eq_done (fun error value log d hrun => ?_) h
  rw [bind_done settings_run, hs] at hrun
  cases hrun

/-- The parser for a missing separator never succeeds. -/
theorem missingSeparator_never {α : Type} :
    Returns (missingSeparator : Parser α) fun _ => False :=
  .andThen fun _ => .failAt

section Lists

variable {argument argument' : Parser Argument} {afterError : Bool} {fuel fuel' : Nat}
  {log : List Event}

/-- In a strict parse the next argument is not glued to what is before it. -/
theorem argumentList_eq_done_cons {arguments : List Argument} (hs : s.mode = .strict)
    (hline : Scan.atLineEnd c.skipTrivia.rest = false)
    (h : argumentList argument afterError (fuel + 1) s c = .done arguments log d) :
    ∃ first earlier e more later, glued c afterError = false ∧
      argument s c.skipTrivia = .done first earlier e ∧
      argumentList argument (isPlaceholder first) fuel s e = .done more later d ∧
      arguments = first :: more := by
  rw [argumentList_run_cons hline, bind_run] at h
  obtain ⟨first, earlier, e, _, hfirst, hrest, -⟩ := Outcome.andThen_eq_done h
  rw [bind_run] at hrest
  obtain ⟨more, later, _, _, hmore, hpure, -⟩ := Outcome.andThen_eq_done hrest
  cases hpure
  have hfirst := orPlaceholder_eq_done hs hfirst
  split at hfirst
  · exact (missingSeparator_never _ _ _ _ _ hfirst).elim
  · rename_i hglued
    exact ⟨first, earlier, e, more, later, by simpa using hglued, hfirst, hmore, rfl⟩

/-- A list of arguments is read from its first argument and the others. -/
theorem exists_argumentList_cons {first : Argument} {more : List Argument}
    {earlier later : List Event} {e : Cursor} {afterFirst : Bool}
    (hline : Scan.atLineEnd c.skipTrivia.rest = false) (hglued : glued c afterError = false)
    (hfirst : argument s c.skipTrivia = .done first earlier e)
    (hplaceholder : isPlaceholder first = afterFirst)
    (hmore : argumentList argument afterFirst fuel s e = .done more later d) :
    ∃ log, argumentList argument afterError (fuel + 1) s c = .done (first :: more) log d := by
  subst hplaceholder
  have hfirst' : orPlaceholder argument .error s c.skipTrivia = .done first earlier e :=
    orElse_done hfirst
  rw [argumentList_run_cons hline, hglued, if_neg Bool.false_ne_true, bind_run, hfirst',
    Outcome.andThen_done, bind_run, hmore]
  exact ⟨_, rfl⟩

/-- The list ends where its last argument does, whatever trivia follow on the line. -/
theorem argumentList_local (hs : s.mode = .strict)
    (hargument : ∀ c, Local seam s c argument argument')
    (hforward : ∀ {c value log d}, argument s c = .done value log d → c < d)
    (hfuel : c ≤ seam.cut → (seam.place c).rest.length < fuel') :
    Local seam s c (argumentList argument afterError fuel)
      (argumentList argument' afterError fuel') := by
  induction fuel generalizing c fuel' afterError with
  | zero => exact .breakOff _
  | succ fuel ih =>
      refine Local.of_turn (f := argumentList argument' afterError) hfuel fun k hk => ?_
      have hsame := seam.place_skipTrivia_atLineEnd c
      intro arguments log e hrun
      rcases hline : Scan.atLineEnd c.skipTrivia.rest with _ | _
      · obtain ⟨first, earlier, d, more, later, hglued, hfirst, hmore, rfl⟩ :=
          argumentList_eq_done_cons hs hline hrun
        have hcd := c.le_skipTrivia.trans_lt (hforward hfirst)
        obtain ⟨hstart, hfirst'⟩ := hargument _ _ _ _ hfirst
        obtain ⟨hde, hmore'⟩ := ih (Seam.length_place_lt_of_turn hfuel hk hcd) _ _ _ hmore
        refine ⟨hcd.le.trans hde, fun he => ?_⟩
        obtain ⟨log', hfirst'⟩ := hfirst' (hde.trans he)
        obtain ⟨log'', hmore'⟩ := hmore' he
        have hskip := Seam.place_skipTrivia (hstart.trans (hde.trans he))
        refine exists_argumentList_cons (hsame.trans hline) ?_ (hskip ▸ hfirst') rfl hmore'
        rw [Seam.place_glued (hstart.trans (hde.trans he)), hglued]
      · rw [argumentList_run_nil hline] at hrun
        cases hrun
        exact ⟨le_rfl, fun _ => ⟨[], argumentList_run_nil (hsame.trans hline)⟩⟩

end Lists

/-! ### Commands -/

/-- Names of commands in front of the gap do not depend on it. -/
theorem commandName_local : Local seam s c commandName commandName := by
  rw [commandName]
  refine .here_bind ?_
  rw [Seam.place_commandName]
  rcases hscan : Scan.commandName c.rest with _ | n
  · exact .of_never unexpected_returns
  · exact textRun_local (Scan.inline_commandName hscan).le_length

/-- Names of macro commands in front of the gap do not depend on it. -/
theorem macroName_local : Local seam s c macroName macroName := by
  rw [macroName]
  refine .here_bind ?_
  rw [Seam.place_startsInterpolation, Seam.place_commandName]
  split
  · rename_i hopen
    exact (interpolation_local hopen).bind fun piece d _ => .pure _
  · split
    · exact commandName_local.bind fun name d _ => .pure _
    · exact .of_never unexpected_returns

/-- Where a command ends does not depend on the gap. -/
theorem commandEnd_local {start : Nat} {arguments : List Argument} :
    Local seam s c (commandEnd start arguments) (commandEnd start arguments) := by
  rw [commandEnd]
  split
  · exact .pure _
  · refine .here_bind ?_
    rw [Seam.place_offset]
    exact .pure _

section Commands

variable {arguments arguments' : Bool → Parser (List Argument)}
  (harguments : ∀ inMacro c, Local seam s c (arguments inMacro) (arguments' inMacro))

include harguments

/-- Commands in front of the gap do not depend on it. -/
theorem command_local (inMacro : Bool) :
    Local seam s c (command (arguments inMacro)) (command (arguments' inMacro)) := by
  rw [command, command]
  refine .here_bind (commandName_local.bind fun name d _ => ?_)
  rw [Seam.place_offset]
  exact (harguments inMacro d).bind fun args d _ => commandEnd_local.bind fun stop d _ =>
    (Local.span _ _).bind fun place d _ => .pure _

/-- Macro commands in front of the gap do not depend on it. -/
theorem macroCommand_local (inMacro : Bool) (hdollar : c.peek = some '$') :
    Local seam s c (macroCommand (arguments inMacro)) (macroCommand (arguments' inMacro)) := by
  rw [macroCommand, macroCommand]
  refine .here_bind (.take_bind (Cursor.length_pos_of_peek hdollar) (.skipTrivia_bind
    (macroName_local.bind fun name d _ => ?_)))
  rw [Seam.place_offset]
  exact (harguments inMacro d).bind fun args d _ => commandEnd_local.bind fun stop d _ =>
    (Local.span _ _).bind fun place d _ => .pure _

/-- Run clauses in front of the gap do not depend on it. -/
theorem runClause_local (inMacro : Bool) (start : Cursor) :
    Local seam s c (runClause arguments inMacro start)
      (runClause arguments' inMacro (seam.place start)) := by
  rw [runClause, runClause]
  refine .skipTrivia_bind (.here_bind ?_)
  rw [Seam.place_peek_beq (by decide), Seam.place_offset]
  split
  · rename_i hdollar
    exact (macroCommand_local harguments true (beq_iff_eq.mp hdollar)).map.bind
      fun subcommand d _ => (Local.span _ _).bind fun place d _ => .pure _
  · exact (command_local harguments inMacro).map.bind
      fun subcommand d _ => (Local.span _ _).bind fun place d _ => .pure _

end Commands

/-! ### Run clauses -/

/-- What a clause with widened errors reads is what the clause reads. -/
theorem wideningTooDeep_eq_done {start : Cursor} {clause : Parser RunClause} {value : RunClause}
    {log : List Event} (h : wideningTooDeep start clause s c = .done value log d) :
    clause s c = .done value log d := by
  refine orElse_eq_done (fun error value log d hrun => ?_) h
  obtain ⟨cause, place⟩ := error
  cases cause with
  | nestingTooDeep deepest =>
      dsimp only at hrun
      split at hrun
      · exact failAt_never _ _ _ _ _ hrun
      · cases hrun
  | _ => cases hrun

/-- Widening the errors of a clause does not matter where it succeeds. -/
theorem wideningTooDeep_local {start start' : Cursor} {clause clause' : Parser RunClause}
    (h : Local seam s c clause clause') :
    Local seam s c (wideningTooDeep start clause) (wideningTooDeep start' clause') := by
  intro value log d hrun
  obtain ⟨hcd, hnext⟩ := h _ _ _ (wideningTooDeep_eq_done hrun)
  refine ⟨hcd, fun hd => ?_⟩
  obtain ⟨log', hnext⟩ := hnext hd
  exact ⟨log', orElse_done hnext⟩

/-- An argument of a command with so many levels left for containers and run clauses. -/
def argumentWithin (room : Nat) (inMacro : Bool) : Parser Argument :=
  argument (containers room) (fun start => wideningTooDeep start (match room with
    | 0 => tooDeep start
    | room + 1 => runClause (arguments room) inMacro start)) inMacro

/-- A list of arguments is one of arguments with that room for nesting. -/
theorem arguments_eq (room : Nat) (inMacro : Bool) :
    arguments room inMacro = here >>= fun start =>
      argumentList (argumentWithin room inMacro) false (start.rest.length + 1) := by
  cases room with
  | zero => exact arguments_zero inMacro
  | succ room => exact arguments_succ room inMacro

/-- What such an argument reads. -/
def ArgumentWithin (room : Nat) (inMacro : Bool) : Cursor → Argument → Cursor → Prop :=
  ArgumentAt room (match room with
    | 0 => fun _ _ _ _ => False
    | room + 1 => RunClauseAt (ArgumentsAt room) inMacro) inMacro

/-- An argument with so much room for nesting reads what it should. -/
theorem argumentWithin_reads (room : Nat) (inMacro : Bool) (c : Cursor) :
    Reads limit c c (argumentWithin room inMacro) (ArgumentWithin room inMacro c) := by
  cases room with
  | zero => exact argument_zero_reads c
  | succ room => exact argument_succ_reads (arguments_reads room) c

/-- An argument stands where it is read. -/
theorem ArgumentWithin.placed {inMacro : Bool} {value : Argument}
    (h : ArgumentWithin room inMacro c value d) : Placed c value.span d := by
  cases room with
  | zero => exact ArgumentAt.placed (fun _ _ _ _ h => h.elim) h
  | succ room =>
      exact ArgumentAt.placed (fun _ _ _ _ h => h.within (ArgumentsAt.argumentsPlaced room)) h

/-- The span of what is read goes from one place to the other. -/
theorem argumentWithin_placed {inMacro : Bool} {value : Argument} {log : List Event}
    (hrun : argumentWithin room inMacro ⟨limit, .strict⟩ c = .done value log d) :
    Placed c value.span d :=
  ArgumentWithin.placed ((argumentWithin_reads room inMacro c).post_of_run hrun)

/-- The arguments of a command, given one argument. -/
theorem Local.arguments {inMacro : Bool}
    (h : ∀ c, Local seam ⟨limit, .strict⟩ c (argumentWithin room inMacro)
      (argumentWithin room inMacro)) (c : Cursor) :
    Local seam ⟨limit, .strict⟩ c (arguments room inMacro) (arguments room inMacro) := by
  rw [arguments_eq]
  exact .here_bind (argumentList_local rfl h (fun hrun => (argumentWithin_placed hrun).lt)
    fun _ => Nat.lt_succ_self _)

/-- Nothing that nests too deep is read. -/
theorem tooDeep_never {α : Type} {start : Cursor} :
    Returns (tooDeep start : Parser α) fun _ => False :=
  .andThen fun _ => .failAt

/-- Arguments in front of the gap do not depend on it, whatever room for nesting is left. -/
theorem argumentWithin_local (room : Nat) (inMacro : Bool) (c : Cursor) :
    Local seam ⟨limit, .strict⟩ c (argumentWithin room inMacro) (argumentWithin room inMacro) := by
  induction room generalizing inMacro c with
  | zero => exact argument_local (fun _ _ _ => wideningTooDeep_local (.of_never tooDeep_never)) c
  | succ room ih =>
      exact argument_local (fun start d _ => wideningTooDeep_local
        (runClause_local (fun inMacro => Local.arguments (ih inMacro)) inMacro start)) c

/-- Lists of arguments in front of the gap do not depend on it. -/
theorem arguments_local (room : Nat) (inMacro : Bool) (c : Cursor) :
    Local seam ⟨limit, .strict⟩ c (arguments room inMacro) (arguments room inMacro) :=
  .arguments (argumentWithin_local room inMacro) c

/-! ### Statements -/

end Parser

/-- The comment is the same, and so is the place where it ends. -/
theorem Seam.place_comment (h : (c.advance (Scan.commentTag c.rest).1).advance
      (Scan.commentText (c.rest.drop (Scan.commentTag c.rest).1)) ≤ seam.cut) :
    (seam.place c).comment = c.comment ∧
      ((seam.place c).advance (Scan.commentTag (seam.place c).rest).1).advance
          (Scan.commentText ((seam.place c).rest.drop (Scan.commentTag (seam.place c).rest).1)) =
        seam.place ((c.advance (Scan.commentTag c.rest).1).advance
          (Scan.commentText (c.rest.drop (Scan.commentTag c.rest).1))) := by
  have htag : Scan.commentTag (seam.place c).rest = Scan.commentTag c.rest :=
    seam.place_scan c fun h => h.commentTag_append _
  have hlen := (Scan.inline_commentTag c.rest).le_length
  rw [Cursor.comment, Cursor.comment, htag]
  generalize Scan.commentTag c.rest = scanned at hlen h ⊢
  obtain ⟨tag, mark⟩ := scanned
  dsimp only at hlen h ⊢
  rw [← Cursor.advance_rest] at h ⊢
  have hcount : Scan.commentText (c.advance tag).rest ≤ (c.advance tag).rest.length :=
    (Scan.commentText_le_statement _).trans (Scan.statement_le_length _)
  have hle := (Cursor.le_advance hcount).trans h
  have hbody : (seam.place c).advance tag = seam.place (c.advance tag) := place_advance hlen hle
  have htext : Scan.commentText (seam.place (c.advance tag)).rest =
      Scan.commentText (c.advance tag).rest := by
    obtain ⟨chars, hrest, hplace⟩ := exists_before hle
    have hchars := le_length hcount h hrest
    rw [hrest] at hchars
    rw [hplace, hrest]
    exact seam.interchangeable.old_separates.commentText_append_of_le
      seam.interchangeable.new_separates hchars
  have hend := place_advance hcount h
  rw [← Cursor.advance_rest, hbody, htext, hend]
  simp only [place_take hcount h, place_textBetween hlen hle, Cursor.spanTo, place_offset,
    and_true]

namespace Parser

/-- Comments in front of the gap do not depend on it. -/
theorem comment_local : Local seam s c comment comment := by
  intro value log d hrun
  have htag := (Scan.inline_commentTag c.rest).le_length
  have htext : Scan.commentText (c.rest.drop (Scan.commentTag c.rest).1) ≤
      (c.advance (Scan.commentTag c.rest).1).rest.length := by
    rw [Cursor.advance_rest]
    exact (Scan.commentText_le_statement _).trans (Scan.statement_le_length _)
  rw [comment_run] at hrun
  cases hrun
  refine ⟨(Cursor.le_advance htag).trans (Cursor.le_advance htext), fun hd => ?_⟩
  obtain ⟨hcomment, hend⟩ := Seam.place_comment hd
  exact ⟨[], by rw [comment_run, hcomment, hend]⟩

section Statements

variable {arguments arguments' : Bool → Parser (List Argument)}
  (harguments : ∀ inMacro c,
    Local seam ⟨limit, .strict⟩ c (arguments inMacro) (arguments' inMacro))
  {argumentsAt : Bool → Cursor → List Argument → Cursor → Prop}
  (hplaced : ∀ inMacro, ArgumentsPlaced (argumentsAt inMacro))
  (hreads : ∀ inMacro c, Reads limit c c (arguments inMacro) (argumentsAt inMacro c))

include harguments hplaced hreads

/-- Macro statements in front of the gap do not depend on it if their arguments do not. -/
theorem macroStatement_local (hdollar : c.peek = some '$') :
    Local seam ⟨limit, .strict⟩ c (macroStatement (arguments true))
      (macroStatement (arguments' true)) := by
  rw [macroStatement, macroStatement]
  refine .here_bind ((macroCommand_local harguments true hdollar).bind_of
    fun command log d hrun hcd => ?_)
  have hspan : command.span = c.spanTo d :=
    (((macroCommand_reads hplaced hreads true hdollar).post_of_run hrun).placed
      (hplaced true)).span_eq
  intro value log e hrun
  rcases hslice : c.slice? command.span.start command.span.stop with _ | chars
  · rw [bind_run, slice, hslice] at hrun
    cases hrun
  · have hfound : slice c command.span.start command.span.stop ⟨limit, .strict⟩ d =
        .done chars [] d := by
      rw [slice, hslice]
      rfl
    rw [bind_done hfound] at hrun
    obtain ⟨rfl, rfl⟩ : value = .macroCommand command ∧ e = d := by
      split at hrun <;> cases hrun <;> exact ⟨rfl, rfl⟩
    refine ⟨le_rfl, fun he => ?_⟩
    obtain ⟨chars', hslice'⟩ := Seam.exists_place_slice? hcd he (by rw [hspan]; rfl) hslice
    have hfound' : slice (seam.place c) command.span.start command.span.stop ⟨limit, .strict⟩
        (seam.place e) = .done chars' [] (seam.place e) := by
      rw [slice, hslice']
      rfl
    rw [bind_done hfound']
    split <;> exact ⟨_, rfl⟩

/-- Statements in front of the gap do not depend on it if their arguments do not. -/
theorem statement_local :
    Local seam ⟨limit, .strict⟩ c (statement arguments) (statement arguments') := by
  rw [statement, statement]
  refine .here_bind ?_
  rcases seam.place_peek_cases c with hsame | ⟨x, y, hx, hy, hgap, hgap'⟩
  · rw [hsame]
    split
    · exact comment_local.bind fun comment d _ => .pure _
    · rename_i hdollar
      exact macroStatement_local harguments hplaced hreads hdollar
    · split
      · exact (command_local harguments false).bind fun command d _ => .pure _
      · exact .of_never failAt_never
    · exact .of_never failAt_never
  · rw [hx, hy]
    rcases Scan.isGapChar_iff.mp hgap with rfl | rfl | rfl | rfl <;>
      exact .of_never (failAt_never (α := Statement))

/-- Statements and comments in front of the gap do not depend on it if arguments do not. -/
theorem anyStatement_local :
    Local seam ⟨limit, .strict⟩ c (anyStatement arguments) (anyStatement arguments') := by
  rw [anyStatement, anyStatement]
  refine .here_bind (.bind (.orElse (fun error value log d hrun => ?_)
    (statement_local harguments hplaced hreads)) fun statement d _ => ?_)
  · rw [bind_done settings_run] at hrun
    cases hrun
  · rintro value log e ⟨⟩
    exact ⟨le_rfl, fun _ => ⟨_, rfl⟩⟩

end Statements

end Parser

end Mcfunction
