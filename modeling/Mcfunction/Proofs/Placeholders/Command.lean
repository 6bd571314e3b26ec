import Mcfunction.Proofs.Parser.Command
import Mcfunction.Proofs.Placeholders.Container

/-!
# Placeholders in Commands

Every argument becomes a placeholder when it cannot be read, so the arguments of a command never
fail and no placeholder among them is dropped again, except with a whole run clause whose name
cannot be read.

## Main results

* `argument_tells`, `argumentList_tells`: one argument, and the arguments up to the end of the
  statement.
* `arguments_tells`: the arguments of a command, with run clauses nested to any depth.
-/

namespace Mcfunction.Parser

variable {limit room n : Nat} {c d origin : Cursor} {inMacro : Bool}

/-! ### Arguments without commands inside -/

/-- The placeholders of a selector tell its errors. -/
theorem selector_tells (room : Nat) (hat : c.peek = some '@') :
    Tells limit c c (selector (containers room)) []
      fun selector => placeholders selector.nodes := by
  rw [selector, tells_here_bind]
  rcases htarget : (c.advance 1).peek.bind SelectorTarget.ofChar? with _ | target
  · obtain ⟨tail, hrest⟩ := List.head?_eq_some_iff.mp hat
    have hlen : 1 + Scan.run Scan.isWordChar (c.rest.drop 1) ≤ c.rest.length := by
      have := Scan.run_le_length Scan.isWordChar tail
      rw [hrest, List.drop_succ_cons, List.drop_zero, List.length_cons]
      omega
    exact .still_bind (.sliceText _ _ _) fun written =>
      .stops (.failAt (.refl c) (Cursor.le_advance hlen) rfl rfl)
  · have htwo := inline_target hat htarget
    dsimp only
    rw [tells_take_bind htwo.le_length, tells_here_bind]
    by_cases hfilter : (c.advance 2).peek = some '['
    · rw [if_pos (by simpa using hfilter), map_bind]
      refine ((list_tells room hfilter).weaken (.inline htwo)).bind fun _ => ?_
      exact .still_bind (.spanFrom _) fun span => .pure rfl
    · rw [if_neg (by simpa using hfilter), pure_eq, tells_bind_iff (pure_run none)]
      exact .still_bind (.spanFrom _) fun span => .pure rfl

section Arguments

variable {run : Cursor → Parser RunClause}

/-- Those of a quoted string, or of the path it starts, tell its errors. -/
theorem stringOrPath_tells (hplain : Scan.startsInterpolated false c.rest = false)
    (hquoted : Scan.startsQuoted c.rest) :
    Tells limit c c (stringOrPath (containers room)) []
      fun argument => placeholders argument.nodes := by
  rw [stringOrPath]
  refine .steady_bind (quotedString_steady (.refl c) hquoted) ?_
  rintro _ _ ⟨q, hq, rfl, rfl⟩
  have hkey : KeyAt c (.plain (c.quotedString q)) (c.advance q.count) :=
    .quoted (startsInterpolated_key_eq_false hplain) hquoted hq
  rw [tells_here_bind]
  split
  · refine (pathFrom_tells hkey.placed.within).bind fun {path log d} _ => .pure ?_
    exact placeholders_flatMap _ _
  · exact .pure rfl

variable (hrun : ∀ {start d}, Within start d →
  Tells limit start d (run start) [] fun clause => placeholders clause.nodes)

include hrun

/-- Those of what a word starts tell its errors. -/
theorem wordArgument_tells (hword : Scan.word c.rest = some n) :
    Tells limit c c (wordArgument (containers room) run n) []
      fun argument => placeholders argument.nodes := by
  have hinline := Scan.inline_word hword
  rw [wordArgument, tells_here_bind]
  dsimp only
  split
  · rw [tells_bind_iff (bareString_run hinline.le_length)]
    refine (pathFrom_tells (.inline hinline)).bind fun {path log d} _ => .pure ?_
    exact placeholders_flatMap _ _
  · rw [tells_bind_iff (textRun_run hinline.le_length)]
    split
    · exact .pure rfl
    · exact .pure rfl
    · split
      · exact (hrun (.inline hinline)).bind fun _ => .pure rfl
      · exact .pure rfl
    · exact .pure rfl

/-- Those of an argument outside a macro tell its errors. -/
theorem plainArgument_tells (c : Cursor) :
    Tells limit c c (plainArgument (containers room) run) []
      fun argument => placeholders argument.nodes := by
  rw [plainArgument, tells_here_bind]
  split
  · exact .steady_bind (coordinates_steady (.refl c)) fun _ _ _ => .pure rfl
  · split
    · rename_i space hspace
      obtain ⟨hword, tail, hcolon⟩ := Scan.resourceNamespace_eq_some hspace
      split
      · rename_i path hpath
        exact (tells_bind_iff (resourceLocation_run hspace hpath)).mpr (.pure rfl)
      · have hlen : space + 1 ≤ c.rest.length :=
          ((Scan.inline_word hword).add (hcolon ▸ .one (by decide))).le_length
        exact .still_bind (.sliceText _ _ _) fun written =>
          .stops (.failAt (.refl c) (Cursor.le_advance hlen) rfl rfl)
    · split
      · rename_i n suffix hnumber
        exact (tells_bind_iff (number_run hnumber)).mpr (.pure rfl)
      · rename_i n _ hword
        exact wordArgument_tells hrun hword
      · exact .stops (unexpected_steady (.refl c))

/-- Those of an argument tell its errors. -/
theorem argument_tells (c : Cursor) :
    Tells limit c c (argument (containers room) run inMacro) []
      fun argument => placeholders argument.nodes := by
  rw [argument, tells_here_bind]
  by_cases hinterpolated : Scan.startsInterpolated false c.rest
  · rw [if_pos hinterpolated, interpolatedArgument]
    refine .steady_bind (interpolated_steady (.refl c) hinterpolated) fun argument d h => ?_
    split
    · exact .pure rfl
    · exact .fail ⟨c, d, .refl c, h.placed.le, h.placed.span_eq⟩
  · rw [if_neg hinterpolated]
    rw [Bool.not_eq_true] at hinterpolated
    split
    · exact .steady_bind (coordinates_steady (.refl c)) fun _ _ _ => .pure rfl
    · exact .steady_bind (coordinates_steady (.refl c)) fun _ _ _ => .pure rfl
    · rename_i hpeek
      exact stringOrPath_tells hinterpolated (startsQuoted_of_peek hpeek (.inl rfl))
    · rename_i hpeek
      exact stringOrPath_tells hinterpolated (startsQuoted_of_peek hpeek (.inr rfl))
    · rename_i hpeek
      exact (selector_tells room hpeek).bind fun _ => .pure rfl
    · rename_i hpeek
      exact (list_tells room hpeek).bind fun _ => .pure rfl
    · rename_i hpeek
      exact (compound_tells room hpeek).bind fun _ => .pure rfl
    · exact .steady_bind (fakePlayer_steady (.refl c)) fun _ _ _ => .pure rfl
    · exact plainArgument_tells hrun c

end Arguments

/-! ### The arguments of a command -/

/-- What a placeholder takes the place of stays in the log. -/
theorem argumentList_tells {argument : Parser Argument}
    {argumentAt : Cursor → Argument → Cursor → Prop} {afterError : Bool} {fuel : Nat}
    (hplaced : ∀ c value d, argumentAt c value d → Placed c value.span d)
    (hargument : ∀ c, Reads limit c c argument (argumentAt c))
    (htells : ∀ c, Tells limit c c argument [] fun argument => placeholders argument.nodes)
    (horigin : Within origin c) :
    Tells limit origin c (argumentList argument afterError fuel) []
      (List.flatMap fun argument => placeholders argument.nodes) := by
  induction fuel generalizing c afterError with
  | zero => exact .breakOff
  | succ fuel ih =>
      have hstart := horigin.trans (.skipTrivia c)
      rw [argumentList, tells_here_bind, tells_skipTrivia_bind, tells_here_bind]
      by_cases hline : Scan.atLineEnd c.skipTrivia.rest
      · rw [if_pos hline, tells_moveTo_bind]
        exact .pure rfl
      · rw [if_neg hline]
        rw [Bool.not_eq_true] at hline
        dsimp only
        generalize (c.skipTrivia.offset == c.offset && !afterError &&
          c.skipTrivia.peek != some '[' && c.skipTrivia.peek != some '{') = glued
        have hfirst : Tells limit c.skipTrivia c.skipTrivia
            (orPlaceholder (if glued = true then missingSeparator else argument) .error) []
            fun argument => placeholders argument.nodes := by
          refine .orPlaceholder hline (fun node => rfl) ?_
          cases glued with
          | true => exact .stops (missingSeparator_steady _)
          | false => exact htells _
        refine (hfirst.weaken hstart).bind fun {first log d} hrun => ?_
        have hd : Within c.skipTrivia d := by
          rcases (argumentOrPlaceholder_reads glued hline (hargument _)).returns hrun with
            ⟨-, h⟩ | ⟨node, rfl, h⟩
          · exact (hplaced _ _ _ h).within
          · exact h.placed.within
        exact (ih (hstart.trans hd)).bind fun _ => .pure rfl

/-! ### Commands -/

theorem placeholders_subcommandOf (command : Command) :
    placeholders (subcommandOf command).nodes = placeholders command.nodes := by
  rw [subcommandOf]
  split
  · exact (MacroCommand.placeholders_nodes _).trans (command.placeholders_nodes).symm
  · rfl

section Commands

variable {arguments : Bool → Parser (List Argument)}
  (htells : ∀ inMacro c, Tells limit c c (arguments inMacro) []
    (List.flatMap fun argument => placeholders argument.nodes))

include htells

/-- The placeholders of a command tell its errors. -/
theorem command_tells (inMacro : Bool) (c : Cursor) :
    Tells limit c c (command (arguments inMacro)) []
      fun command => placeholders command.nodes := by
  rw [command, tells_here_bind]
  refine .steady_bind (commandName_steady (.refl c)) ?_
  rintro _ _ ⟨n, hname, rfl, rfl⟩
  refine ((htells inMacro _).weaken (.inline (Scan.inline_commandName hname))).bind fun _ => ?_
  refine .still_bind (still_commandEnd _ _) fun stop => .still_bind (.span _ _) fun span => ?_
  exact .pure (Command.placeholders_nodes _)

/-- The placeholders of a macro command tell its errors. -/
theorem macroCommand_tells (inMacro : Bool) (hdollar : c.peek = some '$') :
    Tells limit c c (macroCommand (arguments inMacro)) []
      fun command => placeholders command.nodes := by
  have hstart := (Within.peek hdollar (by decide)).2.trans (.skipTrivia _)
  rw [macroCommand, tells_here_bind, tells_take_bind (Cursor.length_pos_of_peek hdollar),
    tells_skipTrivia_bind]
  refine .steady_bind ((macroName_steady _).weaken hstart) fun name d hname => ?_
  refine ((htells inMacro _).weaken (hstart.trans hname.placed.within)).bind fun _ => ?_
  refine .still_bind (still_commandEnd _ _) fun stop => .still_bind (.span _ _) fun span => ?_
  exact .pure (MacroCommand.placeholders_nodes _)

/-- What follows a `run` at an earlier place of the statement. -/
theorem runClause_tells {start : Cursor} (hstart : Within start c) :
    Tells limit start c (runClause arguments inMacro start) []
      fun clause => placeholders clause.nodes := by
  have hle := hstart.trans (.skipTrivia c)
  rw [runClause, tells_skipTrivia_bind, tells_here_bind]
  by_cases hdollar : c.skipTrivia.peek = some '$'
  · rw [if_pos (by simpa using hdollar), map_bind]
    refine ((macroCommand_tells htells true hdollar).weaken hle).bind fun _ => ?_
    exact .still_bind (.span _ _) fun span => .pure rfl
  · rw [if_neg (by simpa using hdollar), map_bind]
    refine ((command_tells htells inMacro _).weaken hle).bind fun {command log d} _ => ?_
    refine .still_bind (.span _ _) fun span => .pure ?_
    exact placeholders_subcommandOf command

end Commands

/-! ### Run clauses -/

/-- A widened error still starts at the `run`. -/
theorem wideningTooDeep_tells {start : Cursor} {clause : Parser RunClause}
    {parts : RunClause → List ErrorNode} (h : Tells limit start c clause [] parts) :
    Tells limit start c (wideningTooDeep start clause) [] parts := by
  have hle : start ≤ start.advance (Scan.trimmedStatement start.rest) :=
    Cursor.le_advance ((Scan.trimmedStatement_le_statement start.rest).trans
      (Scan.statement_le_length start.rest))
  unfold Tells at h ⊢
  generalize hrun : clause ⟨limit, .tolerant⟩ c = outcome at h
  cases h with
  | done hparts htold =>
      rw [wideningTooDeep, orElse, hrun]
      exact .done hparts htold
  | failed herror hlog =>
      obtain ⟨error', hwidened, -, rfl | hspan⟩ := exists_wideningTooDeep_failed hrun
      · rw [hwidened]
        exact .failed herror hlog
      · rw [hwidened]
        exact .failed ⟨start, _, .refl start, hle, hspan⟩ hlog
  | broken =>
      rw [wideningTooDeep, orElse, hrun]
      exact .broken

/-- The placeholders of arguments tell their errors if those of containers and run clauses do. -/
theorem argumentsOf_tells {inside : Containers} {clause : Cursor → Parser RunClause}
    {argumentAt : Cursor → Argument → Cursor → Prop}
    (hplaced : ∀ c value d, argumentAt c value d → Placed c value.span d)
    (hargument : ∀ c, Reads limit c c
      (argument inside (fun start => wideningTooDeep start (clause start)) inMacro)
      (argumentAt c))
    (htells : ∀ c, Tells limit c c
      (argument inside (fun start => wideningTooDeep start (clause start)) inMacro) []
      fun argument => placeholders argument.nodes) (c : Cursor) :
    Tells limit c c (argumentsOf inside clause inMacro) []
      (List.flatMap fun argument => placeholders argument.nodes) := by
  rw [argumentsOf, tells_here_bind]
  exact argumentList_tells hplaced hargument htells (.refl c)

/-- The arguments of a command with any number of levels left. -/
theorem arguments_tells (room : Nat) (inMacro : Bool) (c : Cursor) :
    Tells limit c c (arguments room inMacro) []
      (List.flatMap fun argument => placeholders argument.nodes) := by
  induction room generalizing inMacro c with
  | zero =>
      rw [arguments_zero]
      refine argumentsOf_tells (fun _ _ _ h => h.placed fun _ _ _ _ h => h.elim)
        argument_zero_reads (argument_tells fun hstart => ?_) c
      exact wideningTooDeep_tells (tooDeep_tells (.refl _))
  | succ room ih =>
      have hrun := ArgumentsAt.argumentsPlaced room
      rw [arguments_succ]
      refine argumentsOf_tells (fun _ _ _ h => h.placed fun _ _ _ _ h => h.within hrun)
        (argument_succ_reads (arguments_reads room)) (argument_tells fun hstart => ?_) c
      exact wideningTooDeep_tells (runClause_tells ih hstart)

end Mcfunction.Parser
