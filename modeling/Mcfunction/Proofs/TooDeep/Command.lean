import Mcfunction.Proofs.Gaps.Document
import Mcfunction.Proofs.TooDeep.Argument

/-!
# Commands and Documents That a Smaller Limit Cuts Off

The arguments of a command in a strict parse and in a tolerant one with fewer levels. The tolerant
run may take turns that the strict one does not: a path where nothing may nest is one argument to
the strict run, and one more for each further container to the tolerant one.

## Main results

* `argumentList_spares`: the loop over the arguments, from any place that resumes.
* `arguments_spares`: the arguments of a command.
* `document_spares`: a document.
-/

namespace Mcfunction

variable {many limit few room : Nat} {c d next start : Cursor} {inMacro : Bool}

/-- At a place from which the parse of the arguments comes back to that of the strict run. -/
def Ending.resumes (few : Nat) : Ending :=
  ⟨Resumes few, fun _ _ => False⟩

/-- At the end of the line where the strict run ends. -/
def Ending.lineEnd : Ending :=
  ⟨MeetAtLineEnd, fun _ _ => False⟩

/-- Behind the same trivia as the strict run. -/
def Ending.meet : Ending :=
  ⟨fun next d => next.skipTrivia = d.skipTrivia, fun _ _ => False⟩

/-! ### Containers among the arguments -/

namespace Boxed

theorem exists_cons (h : Boxed c d) : ∃ x tail, c.rest = x :: tail ∧ (x = '[' ∨ x = '{') := by
  obtain ⟨bracket, -, hopen, -⟩ := h
  obtain ⟨tail, hrest⟩ := List.head?_eq_some_iff.mp hopen
  exact ⟨_, tail, hrest, Scan.opener_cases bracket⟩

theorem skipTrivia (h : Boxed c d) : c.skipTrivia = c := by
  obtain ⟨x, tail, hrest, rfl | rfl⟩ := h.exists_cons
  all_goals
    have hnone : Scan.trivia c.rest = 0 := by
      rw [hrest]
      exact Scan.repeated_of_step_zero rfl
    rw [Cursor.skipTrivia, hnone, Cursor.advance_zero]

theorem atLineEnd (h : Boxed c d) : Scan.atLineEnd c.rest = false := by
  obtain ⟨x, tail, hrest, rfl | rfl⟩ := h.exists_cons
  all_goals
    rw [hrest]
    rfl

end Boxed

namespace Parser

/-- Nothing is glued to a container. -/
theorem glued_of_boxed {afterError : Bool} (h : Boxed c d) : glued c afterError = false := by
  rw [glued, h.skipTrivia]
  rcases h.peek with hpeek | hpeek
  · simp [hpeek]
  · simp [hpeek]

theorem glued_of_false {afterError : Bool} (h : glued c false = false) :
    glued c afterError = false := by
  cases afterError with
  | false => exact h
  | true => simp [glued]

/-- Where nothing may nest, a container is no argument. -/
theorem argumentWithin_run_tooDeep (h : Boxed c d) :
    argumentWithin 0 inMacro ⟨limit, .tolerant⟩ c =
      .failed ⟨.nestingTooDeep limit, ⟨c.offset, c.charEnd⟩⟩ [] := by
  obtain ⟨x, tail, hrest, hx⟩ := h.exists_cons
  have hplain : Scan.startsInterpolated false c.rest = false := by
    rw [hrest]
    exact Scan.startsInterpolated_of_head (hx.imp_right .inl)
  rw [argumentWithin, argument, bind_done here_run, hplain, Cursor.peek_of_cons hrest]
  rcases hx with rfl | rfl
  · exact bind_failed containerTooDeep_run
  · exact bind_failed containerTooDeep_run

/-! ### The arguments of a command -/

section Arguments

/-- Where the strict run is at the end of the line, so is the tolerant one. -/
theorem argumentList_spared_nil {argument argument' : Parser Argument} {afterError : Bool}
    {fuel fuel' : Nat} {arguments : List Argument} {log : List Event} (hmeet : MeetAtLineEnd next c)
    (hrun : argumentList argument false (fuel + 1) ⟨many, .strict⟩ c = .done arguments log d) :
    (argumentList argument' afterError (fuel' + 1) ⟨limit, .tolerant⟩ next).Spared limit .lineEnd
      d := by
  obtain ⟨hskip, hline⟩ := hmeet
  rw [argumentList_run_nil hline] at hrun
  cases hrun
  rw [argumentList_run_nil (hskip ▸ hline)]
  exact .done .nil ⟨hskip, hline⟩

/-- One argument and those behind it. -/
theorem argumentList_spared_cons {argument : Parser Argument} {afterError : Bool} {fuel : Nat}
    {ending : Ending} (hline : Scan.atLineEnd c.skipTrivia.rest = false)
    (hglued : glued c afterError = false) (hfails : ∀ error, ¬ ending.fails next error)
    (hfirst : (orPlaceholder argument .error ⟨limit, .tolerant⟩ c.skipTrivia).Spared limit ending
      next)
    (hothers : ∀ afterError e, ending.stops e next →
      (argumentList argument afterError fuel ⟨limit, .tolerant⟩ e).Spared limit .lineEnd d) :
    (argumentList argument afterError (fuel + 1) ⟨limit, .tolerant⟩ c).Spared limit .lineEnd d := by
  rw [argumentList_run_cons hline, hglued, bind_run]
  refine hfirst.andThen (fun error h => (hfails error h).elim) fun first e hstop => ?_
  rw [bind_run]
  exact (hothers _ e hstop).andThen (fun _ h => h.elim) fun _ _ h => .done .nil h

variable (hargument : ∀ c, Spares many limit (.argument few c)
  (fun argument => SkippedWhole (argument.tooDeep few)) c (argumentWithin room inMacro)
  (argumentWithin few inMacro))

include hargument

/-- The loop over the arguments, by induction on the fuel of the strict run, and in one turn of that
on the turns that take the tolerant run to the same place. -/
theorem argumentList_spares {afterError : Bool} {fuel fuel' : Nat} {arguments : List Argument}
    {log : List Event}
    (hrun : argumentList (argumentWithin room inMacro) false fuel ⟨many, .strict⟩ c =
      .done arguments log d)
    (hgood : SkippedWhole (arguments.flatMap (Argument.tooDeep few)))
    (hresumes : Resumes few next c) :
    (argumentList (argumentWithin few inMacro) afterError fuel' ⟨limit, .tolerant⟩ next).Spared
      limit .lineEnd d := by
  induction fuel generalizing arguments log c next afterError fuel' with
  | zero => cases hrun
  | succ fuel ih =>
      induction hresumes generalizing afterError fuel' with
      | @same c =>
          rcases fuel' with _ | fuel'
          · exact .broken
          rcases hline : Scan.atLineEnd c.skipTrivia.rest with _ | _
          · obtain ⟨first, _, e, more, _, hglued, hfirst, hmore, rfl⟩ :=
              argumentList_eq_done_cons rfl hline hrun
            obtain ⟨hgood, hothers⟩ := List.forall_mem_append.mp hgood
            rw [isPlaceholder_eq_false ((argumentWithin_reads room inMacro _).post_of_run hfirst)]
              at hmore
            have hspared : (orPlaceholder (argumentWithin few inMacro) .error ⟨limit, .tolerant⟩
                c.skipTrivia).Spared limit (.resumes few) e := by
              refine (hargument _ _ _ _ hfirst hgood).orPlaceholder (fun _ h => h) ?_
              rintro error ⟨next, hle, hskip, hresumes⟩
              exact ⟨next, hle, hskip, hresumes⟩
            exact argumentList_spared_cons hline (glued_of_false hglued) (fun _ => id) hspared
              fun _ _ => ih hmore hothers
          · exact argumentList_spared_nil ⟨rfl, hline⟩ hrun
      | lineEnd hmeet =>
          rcases fuel' with _ | fuel'
          · exact .broken
          exact argumentList_spared_nil hmeet hrun
      | @container next e _ hfew hboxed _ ih' =>
          rcases fuel' with _ | fuel'
          · exact .broken
          subst hfew
          have hskip := hboxed.skipTrivia
          have hfirst : (orPlaceholder (argumentWithin 0 inMacro) .error ⟨limit, .tolerant⟩
              next.skipTrivia).Spared limit .same e := by
            rw [hskip]
            refine .container ?_
            rw [argumentWithin_run_tooDeep hboxed]
            exact .failed .nil rfl ⟨hboxed, rfl⟩
          refine argumentList_spared_cons (by rw [hskip, hboxed.atLineEnd]) (glued_of_boxed hboxed)
            (fun _ => id) hfirst ?_
          rintro _ _ rfl
          exact ih' hrun

/-- The arguments of a command, given one argument. -/
theorem arguments_spares_of (c : Cursor) :
    Spares many limit .lineEnd
      (fun arguments => SkippedWhole (arguments.flatMap (Argument.tooDeep few))) c
      (arguments room inMacro) (arguments few inMacro) := by
  rw [arguments_eq, arguments_eq]
  exact .here_bind fun arguments log d hrun hgood =>
    argumentList_spares hargument hrun hgood .same

end Arguments

/-! ### Commands -/

theorem subcommandOf_arguments (command : Command) :
    (subcommandOf command).arguments = command.arguments := by
  rw [subcommandOf]
  split
  · rfl
  · rfl

section Commands

variable {good : List Argument → Prop} {arguments arguments' : Bool → Parser (List Argument)}
  (harguments : ∀ inMacro c, Spares many limit .lineEnd good c (arguments inMacro)
    (arguments' inMacro))

include harguments

/-- Commands are spared if their arguments are. -/
theorem command_spares (inMacro : Bool) (c : Cursor) :
    Spares many limit .lineEnd (fun command => good command.arguments) c
      (command (arguments inMacro)) (command (arguments' inMacro)) := by
  have hend : ∀ (start : Cursor) name (arguments : List Argument),
      Still (commandEnd start.offset arguments >>= fun stop => span start.offset stop >>=
        fun span => Pure.pure (⟨name, arguments, span⟩ : Command)) :=
    fun _ _ _ => (still_commandEnd _ _).bind fun _ => (Still.span _ _).bind fun _ => .pure _
  refine .plain_bind .here fun start _ => .plain_bind plain_commandName fun name d =>
    (harguments inMacro d).bind_still (fun arguments => ?_) (hend start name) (hend start name)
  exact .andThen fun _ => .andThen fun _ => .pure id

/-- Macro commands are spared if their arguments are. -/
theorem macroCommand_spares (inMacro : Bool) (c : Cursor) :
    Spares many limit .lineEnd (fun command => good command.arguments) c
      (macroCommand (arguments inMacro)) (macroCommand (arguments' inMacro)) := by
  have hend : ∀ (start : Cursor) (name : MacroName) (arguments : List Argument),
      Still (commandEnd name.span.start arguments >>= fun stop => span start.offset stop >>=
        fun span => Pure.pure (⟨name, arguments, span⟩ : MacroCommand)) :=
    fun _ _ _ => (still_commandEnd _ _).bind fun _ => (Still.span _ _).bind fun _ => .pure _
  refine .plain_bind .here fun start _ => .plain_bind (.take 1) fun _ _ =>
    .plain_bind .skipTrivia fun _ _ => .plain_bind plain_macroName fun name d =>
      (harguments inMacro d).bind_still (fun arguments => ?_) (hend start name) (hend start name)
  exact .andThen fun _ => .andThen fun _ => .pure id

/-- Run clauses are spared if their arguments are. -/
theorem runClause_spares (start c : Cursor) :
    Spares many limit .lineEnd (fun clause => good clause.subcommand.arguments) c
      (runClause arguments inMacro start) (runClause arguments' inMacro start) := by
  have hend : ∀ subcommand : Subcommand, Still (span start.offset subcommand.span.stop >>=
      fun span => Pure.pure (⟨subcommand, span⟩ : RunClause)) :=
    fun _ => (Still.span _ _).bind fun _ => .pure _
  have hgood : ∀ subcommand : Subcommand, Returns (span start.offset subcommand.span.stop >>=
      fun span => Pure.pure (⟨subcommand, span⟩ : RunClause))
      fun clause => good clause.subcommand.arguments → good subcommand.arguments :=
    fun _ => .andThen fun _ => .pure id
  refine .plain_bind .skipTrivia fun _ d => .plain_bind .here fun here e => ?_
  split
  · have hmacro : Spares many limit .lineEnd
        (fun subcommand : Subcommand => good subcommand.arguments) e
        (Subcommand.macroCommand <$> macroCommand (arguments true))
        (Subcommand.macroCommand <$> macroCommand (arguments' true)) :=
      .map (macroCommand_spares harguments true e)
    exact hmacro.bind_still hgood hend hend
  · have hcommand : Spares many limit .lineEnd
        (fun subcommand : Subcommand => good subcommand.arguments) e
        (subcommandOf <$> command (arguments inMacro))
        (subcommandOf <$> command (arguments' inMacro)) := by
      refine .map ((command_spares harguments inMacro e).mono fun command => ?_)
      rw [subcommandOf_arguments]
      exact id
    exact hcommand.bind_still hgood hend hend

end Commands

/-! ### Arguments with a level left -/

/-- A clause that cannot fail has no error to widen. -/
theorem wideningTooDeep_spares {good : RunClause → Prop} {clause clause' : Parser RunClause}
    (h : Spares many limit .lineEnd good c clause clause') :
    Spares many limit .lineEnd good c (wideningTooDeep start clause)
      (wideningTooDeep start clause') := by
  intro value log d hrun hgood
  exact (h _ _ _ (wideningTooDeep_eq_done hrun) hgood).orElse (fun _ => id) fun _ _ h => h.elim

/-- What recovery skips of an argument with a level left is in it. -/
theorem skippedWhole_succ {argument : Argument} (h : SkippedWhole (argument.tooDeep (few + 1))) :
    CutWhole few argument.members ∧
      SkippedWhole (argument.arguments.flatMap (Argument.tooDeep few)) :=
  List.forall_mem_append.mp h

/-- An argument with at least one level left. -/
theorem argumentWithin_spares_succ (hle : few ≤ room)
    (harguments : ∀ inMacro c, Spares many limit .lineEnd
      (fun arguments => SkippedWhole (arguments.flatMap (Argument.tooDeep few))) c
      (arguments room inMacro) (arguments few inMacro)) (c : Cursor) :
    Spares many limit (.argument (few + 1) c)
      (fun argument => SkippedWhole (argument.tooDeep (few + 1))) c
      (argumentWithin (room + 1) inMacro) (argumentWithin (few + 1) inMacro) := by
  have hsame : ∀ d, (Ending.argument (few + 1) c).stops d d := fun _ => .same
  have hinside : (containers (room + 1)).Spares many limit few (containers (few + 1)) :=
    containers_spares hle
  refine argument_spares hsame (fun name d _ _ => ?_) (fun n _ => ?_) (fun _ => ?_) (fun _ => ?_)
    fun _ target _ _ => ?_
  · refine ((pathFrom_spares hinside name d).mono fun path h => ?_).of_same hsame
    exact (skippedWhole_succ h).1
  · have hclause : Spares many limit .lineEnd (fun clause =>
        SkippedWhole (clause.subcommand.arguments.flatMap (Argument.tooDeep few))) (c.advance n)
        (wideningTooDeep c (runClause (arguments room) inMacro c))
        (wideningTooDeep c (runClause (arguments few) inMacro c)) :=
      wideningTooDeep_spares (runClause_spares harguments c _)
    refine (hclause.mono fun clause h => (skippedWhole_succ h).2).weaken ?_ fun _ _ h => h.elim
    exact fun _ _ => .lineEnd
  · exact ((hinside.list c).mono fun list h => (skippedWhole_succ h).1).of_same hsame
  · exact ((hinside.compound c).mono fun compound h => (skippedWhole_succ h).1).of_same hsame
  · refine ((hinside.list _).mono fun list h => ?_).of_same hsame
    obtain ⟨span, h⟩ := h
    exact (skippedWhole_succ h).1

/-- The arguments of a command, by induction on the levels that are left. -/
theorem arguments_spares (hle : few ≤ room) (inMacro : Bool) (c : Cursor) :
    Spares many limit .lineEnd
      (fun arguments => SkippedWhole (arguments.flatMap (Argument.tooDeep few))) c
      (arguments room inMacro) (arguments few inMacro) := by
  induction few generalizing room inMacro c with
  | zero => exact arguments_spares_of (argumentWithin_spares_zero room inMacro) c
  | succ few ih =>
      obtain ⟨room, rfl⟩ : ∃ r, room = r + 1 := ⟨room - 1, by omega⟩
      have hle := Nat.le_of_succ_le_succ hle
      exact arguments_spares_of (argumentWithin_spares_succ hle fun _ _ => ih hle _ _) c

/-! ### Statements -/

section Statements

variable {arguments arguments' : Bool → Parser (List Argument)}

section

variable {good : List Argument → Prop}
  (harguments : ∀ inMacro c, Spares many limit .lineEnd good c (arguments inMacro)
    (arguments' inMacro))

include harguments

/-- The warning about a macro line without interpolation is no error. -/
theorem macroStatement_spares (c : Cursor) :
    Spares many limit .lineEnd (fun statement => good statement.arguments) c
      (macroStatement (arguments true)) (macroStatement (arguments' true)) := by
  refine .here_bind ((macroCommand_spares harguments true c).bind_quiet (fun command => ?_)
    (fun command => ?_) fun command => ?_)
  · refine .andThen fun chars => ?_
    split
    · exact .andThen fun _ => .pure id
    · exact .pure id
  all_goals
    refine (Still.slice _ _ _).quiet.bind fun chars => ?_
    split
    · exact (Quiet.log rfl).bind fun _ => (Still.pure _).quiet
    · exact (Still.pure _).quiet

/-- Statements are spared if their arguments are. -/
theorem statement_spares (c : Cursor) :
    Spares many limit .meet (fun statement => good statement.arguments) c (statement arguments)
      (statement arguments') := by
  have hweaken : ∀ {p p'},
      Spares many limit .lineEnd (fun statement : Statement => good statement.arguments) c p p' →
        Spares many limit .meet (fun statement => good statement.arguments) c p p' :=
    fun h => h.weaken (fun _ _ h => h.1) fun _ _ h => h
  refine .here_bind ?_
  split
  · exact .of_same (.of_plain (.bind plain_comment fun _ => .pure _)) fun _ => rfl
  · exact hweaken (macroStatement_spares harguments c)
  · split
    · exact hweaken (.map (command_spares harguments false c))
    · exact .of_same (.of_plain (.failAt _ _ _)) fun _ => rfl
  · exact .of_same (.of_plain (.failAt _ _ _)) fun _ => rfl

/-- Statements and comments are spared if arguments are. -/
theorem anyStatement_spares (c : Cursor) :
    Spares many limit .meet (fun statement => good statement.arguments) c (anyStatement arguments)
      (anyStatement arguments') := by
  intro value log d hrun hgood
  obtain ⟨log', hfirst⟩ := anyStatement_eq_done rfl hrun
  rw [anyStatement, bind_done here_run, bind_run]
  have hstatement := statement_spares harguments c _ _ _ hfirst hgood
  refine (hstatement.orElse (fun _ => id) fun _ _ h => h.elim).andThen (fun _ h => h.elim) ?_
  exact fun first next hmeet => .done (.of_errorsOf_nil rfl) hmeet

end

/-- The statements, each from the place to which trivia takes both runs. -/
theorem statements_spares
    (harguments : ∀ inMacro c, Spares many limit .lineEnd
      (fun arguments => SkippedWhole (arguments.flatMap (Argument.tooDeep few))) c
      (arguments inMacro) (arguments' inMacro)) (fuel : Nat) (c : Cursor) :
    Spares many limit .same
      (fun statements => SkippedWhole
        ((statements.flatMap Statement.arguments).flatMap (Argument.tooDeep few))) c
      (statements arguments fuel) (statements arguments' fuel) := by
  induction fuel generalizing c with
  | zero => exact .of_plain (.breakOff _)
  | succ fuel ih =>
      intro found log d hrun hgood
      rcases hpeek : c.skipTrivia.peek with _ | x
      · rw [statements_run_nil hpeek] at hrun ⊢
        cases hrun
        exact .done .nil rfl
      by_cases hx : x = '\n'
      · subst hx
        rw [statements_run_newline hpeek] at hrun ⊢
        exact ih _ _ _ _ hrun hgood
      · obtain ⟨first, _, e, others, _, hfirst, hothers, rfl, -⟩ :=
          statements_eq_done_cons hpeek hx hrun
        rw [List.flatMap_cons, List.flatMap_append] at hgood
        obtain ⟨hgood, hrest⟩ := List.forall_mem_append.mp hgood
        rw [statements_run_cons hpeek hx]
        refine (anyStatement_spares harguments _ _ _ _ hfirst hgood).andThen (fun _ h => h.elim)
          fun first' next hmeet => ?_
        rw [← statements_run_skipTrivia, show next.skipTrivia = e.skipTrivia from hmeet,
          statements_run_skipTrivia]
        exact (ih e _ _ _ hothers hrest).andThen (fun _ h => h.elim) fun _ _ h => .done .nil h

end Statements

/-- A document, with a limit that is no larger than that of the strict parse. -/
theorem document_spares (hle : limit ≤ many) (c : Cursor) :
    Spares many limit .same (fun document => SkippedWhole (document.tooDeep limit)) c document
      document := by
  have hstatements : Spares many limit .same
      (fun statements => SkippedWhole (Document.tooDeep limit ⟨statements⟩)) c
      (statements (arguments many) (c.rest.length + 1))
      (statements (arguments limit) (c.rest.length + 1)) :=
    statements_spares (fun _ _ => arguments_spares hle _ _) _ c
  have hdocument : Spares many limit .same (fun document => SkippedWhole (document.tooDeep limit)) c
      (Document.mk <$> statements (arguments many) (c.rest.length + 1))
      (Document.mk <$> statements (arguments limit) (c.rest.length + 1)) :=
    .map hstatements
  intro tree log d hrun hgood
  rw [document_run] at hrun ⊢
  exact hdocument _ _ _ hrun hgood

end Parser

end Mcfunction
