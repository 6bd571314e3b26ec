import Mcfunction.Proofs.Depth.Container

/-!
# Commands and Documents with Different Limits

The arguments of a command have as many levels left as the command, and the command of a run
clause has one level less than the argument that holds it. So a strict parse with fewer levels does
what one with more levels does, unless the document nests too deep for it.

## Main results

* `argument_limits`: arguments, given their containers and run clauses.
* `runClause_limits`: run clauses, given the arguments of their commands.
* `argumentsOf_limits`: the arguments of a command.
* `Document.run_limited`: two strict parses of one text with different limits.
-/

namespace Mcfunction

namespace Parser

variable {cut : Prop} {wide narrow : Settings} {room : Nat} {inMacro : Bool}

section Arguments

variable {inside inside' : Containers} (hinside : inside.Limits cut wide narrow room inside')

include hinside

/-- Selectors are parsed alike unless their filters nest too deep. -/
theorem selector_limits :
    Limits cut wide narrow (fun selector => room < selector.nest) (selector inside)
      (selector inside') := by
  refine .plain_bind .here fun start => ?_
  split
  · refine .plain_bind (.take 2) fun _ => .plain_bind .here fun opener => ?_
    have hclose : ∀ {filter filter' : Parser (Option NbtList)} {target : SelectorTarget},
        Limits cut wide narrow (fun filter => room < (filter.map NbtList.nest).getD 0)
          filter filter' →
        Limits cut wide narrow (fun selector => room < selector.nest)
          (filter >>= fun filter => spanFrom start.offset >>= fun span =>
            Pure.pure (⟨target, filter, span⟩ : Selector))
          (filter' >>= fun filter => spanFrom start.offset >>= fun span =>
            Pure.pure (⟨target, filter, span⟩ : Selector)) := by
      intro filter filter' target hfilter
      refine hfilter.bind (fun filter hdeep => ?_) fun filter hdeep => ?_
      · exact .andThen fun span => .pure hdeep
      · exact .plain_bind (.spanFrom _) fun span => .pure hdeep
    dsimp only
    split
    · exact hclose (.map hinside.list)
    · exact hclose (.pure (Nat.not_lt_zero room))
  · exact .plain_bind (.sliceText _ _ _) fun _ => .failAt _ _ _

/-- Paths are parsed alike unless they nest too deep. -/
theorem path_limits (name : NbtKey) :
    Limits cut wide narrow (fun argument => room < argument.nest)
      (pathFrom inside name >>= fun path => Pure.pure (Argument.path path))
      (pathFrom inside' name >>= fun path => Pure.pure (Argument.path path)) :=
  (pathFrom_limits hinside name).bind (fun _ h => .pure h) fun _ h => .pure h

/-- Quoted strings and the paths they start are parsed alike unless these nest too deep. -/
theorem stringOrPath_limits :
    Limits cut wide narrow (fun argument => room < argument.nest) (stringOrPath inside)
      (stringOrPath inside') := by
  refine .plain_bind plain_quotedString fun literal => .plain_bind .here fun next => ?_
  split
  · exact path_limits hinside _
  · exact .pure (Nat.not_lt_zero room)

variable {run run' : Cursor → Parser RunClause}
  (hrun : ∀ start, Limits cut wide narrow (fun clause => room < clause.nest) (run start)
    (run' start))

include hrun

/-- What a word starts is parsed alike unless it nests too deep. -/
theorem wordArgument_limits (count : Nat) :
    Limits cut wide narrow (fun argument => room < argument.nest) (wordArgument inside run count)
      (wordArgument inside' run' count) := by
  refine .plain_bind .here fun start => ?_
  dsimp only
  split
  · exact .plain_bind (plain_bareString count) fun name => path_limits hinside _
  · refine .plain_bind (plain_textRun count) fun word => ?_
    split
    · exact .pure (Nat.not_lt_zero room)
    · exact .pure (Nat.not_lt_zero room)
    · split
      · exact (hrun start).bind (fun _ h => .pure h) fun _ h => .pure h
      · exact .pure (Nat.not_lt_zero room)
    · exact .pure (Nat.not_lt_zero room)

/-- Arguments outside a macro are parsed alike unless they nest too deep. -/
theorem plainArgument_limits :
    Limits cut wide narrow (fun argument => room < argument.nest) (plainArgument inside run)
      (plainArgument inside' run') := by
  refine .plain_bind .here fun start => ?_
  split
  · exact .plain_bind plain_coordinates fun _ => .pure (Nat.not_lt_zero room)
  · split
    · split
      · exact .plain_bind (plain_resourceLocation _ _) fun _ => .pure (Nat.not_lt_zero room)
      · exact .plain_bind (.sliceText _ _ _) fun _ => .failAt _ _ _
    · split
      · exact .plain_bind (plain_number _ _) fun _ => .pure (Nat.not_lt_zero room)
      · exact wordArgument_limits hinside hrun _
      · exact .unexpected _

/-- Arguments are parsed alike unless they nest too deep. -/
theorem argument_limits :
    Limits cut wide narrow (fun argument => room < argument.nest) (argument inside run inMacro)
      (argument inside' run' inMacro) := by
  refine .plain_bind .here fun start => ?_
  split
  · refine .plain_bind (plain_interpolated false) fun argument => ?_
    split
    · exact .pure (Nat.not_lt_zero room)
    · exact .fail _
  · split
    · exact .plain_bind plain_coordinates fun _ => .pure (Nat.not_lt_zero room)
    · exact .plain_bind plain_coordinates fun _ => .pure (Nat.not_lt_zero room)
    · exact stringOrPath_limits hinside
    · exact stringOrPath_limits hinside
    · exact (selector_limits hinside).bind (fun _ h => .pure h) fun _ h => .pure h
    · exact hinside.list.bind (fun _ h => .pure h) fun _ h => .pure h
    · exact hinside.compound.bind (fun _ h => .pure h) fun _ h => .pure h
    · exact .plain_bind plain_fakePlayer fun _ => .pure (Nat.not_lt_zero room)
    · exact plainArgument_limits hinside hrun

end Arguments

/-! ### The arguments of a command -/

/-- Lists of arguments are parsed alike unless one of the arguments nests too deep. -/
theorem argumentList_limits {argument argument' : Parser Argument} {afterError : Bool} {fuel : Nat}
    (h : Settings.Compared cut wide narrow)
    (hargument : Limits cut wide narrow (fun argument => room < argument.nest) argument argument') :
    Limits cut wide narrow (fun arguments => room < Argument.allNest arguments)
      (argumentList argument afterError fuel) (argumentList argument' afterError fuel) := by
  induction fuel generalizing afterError with
  | zero => exact .breakOff _
  | succ fuel ih =>
      rw [argumentList, argumentList]
      refine .plain_bind .here fun gap => .plain_bind .skipTrivia fun _ =>
        .plain_bind .here fun start => ?_
      split
      · exact .plain_bind (.moveTo gap) fun _ => .pure (Nat.not_lt_zero room)
      · have hfirst : ∀ glued : Bool, Limits cut wide narrow (fun argument => room < argument.nest)
            (orPlaceholder (if glued = true then missingSeparator else argument) .error)
            (orPlaceholder (if glued = true then missingSeparator else argument') .error) := by
          intro glued
          refine .orPlaceholder h (fun _ => Nat.not_lt_zero room) ?_
          cases glued with
          | true =>
              refine .of_plain plain_missingSeparator ?_
              exact .andThen fun start => .failAt
          | false => exact hargument
        refine (hfirst _).bind (fun first hdeep => ?_) fun first hdeep => ?_
        · exact .andThen fun others => .pure (Argument.lt_allNest_cons_iff.mpr (.inl hdeep))
        · refine ih.bind (fun others hothers => .pure ?_) fun others hothers => .pure ?_
          · exact Argument.lt_allNest_cons_iff.mpr (.inr hothers)
          · exact fun h => (Argument.lt_allNest_cons_iff.mp h).elim hdeep hothers

/-! ### Commands -/

theorem subcommandOf_nest (command : Command) : (subcommandOf command).nest = command.nest := by
  obtain ⟨name, arguments, span⟩ := command
  rw [subcommandOf]
  split
  · rfl
  · rfl

section Commands

variable {arguments arguments' : Bool → Parser (List Argument)}
  (harguments : ∀ inMacro, Limits cut wide narrow
    (fun arguments => room < Argument.allNest arguments) (arguments inMacro) (arguments' inMacro))

include harguments

/-- Commands are parsed alike unless they nest too deep. -/
theorem command_limits (inMacro : Bool) :
    Limits cut wide narrow (fun command => room < command.nest) (command (arguments inMacro))
      (command (arguments' inMacro)) := by
  refine .plain_bind .here fun start => .plain_bind plain_commandName fun name =>
    (harguments inMacro).bind (fun arguments hdeep => ?_) fun arguments hdeep => ?_
  · exact .andThen fun stop => .andThen fun span => .pure hdeep
  · exact .plain_bind (plain_commandEnd _ _) fun stop =>
      .plain_bind (.span _ _) fun span => .pure hdeep

/-- Macro commands are parsed alike unless they nest too deep. -/
theorem macroCommand_limits (inMacro : Bool) :
    Limits cut wide narrow (fun command => room < command.nest)
      (macroCommand (arguments inMacro)) (macroCommand (arguments' inMacro)) := by
  refine .plain_bind .here fun start => .plain_bind (.take 1) fun _ =>
    .plain_bind .skipTrivia fun _ => .plain_bind plain_macroName fun name =>
      (harguments inMacro).bind (fun arguments hdeep => ?_) fun arguments hdeep => ?_
  · exact .andThen fun stop => .andThen fun span => .pure hdeep
  · exact .plain_bind (plain_commandEnd _ _) fun stop =>
      .plain_bind (.span _ _) fun span => .pure hdeep

/-- Run clauses, which count themselves, are parsed alike unless they nest too deep. -/
theorem runClause_limits (start : Cursor) :
    Limits cut wide narrow (fun clause => room + 1 < clause.nest)
      (runClause arguments inMacro start) (runClause arguments' inMacro start) := by
  have hclose : ∀ {subcommand subcommand' : Parser Subcommand},
      Limits cut wide narrow (fun subcommand => room < subcommand.nest) subcommand subcommand' →
      Limits cut wide narrow (fun clause => room + 1 < clause.nest)
        (subcommand >>= fun subcommand => span start.offset subcommand.span.stop >>= fun span =>
          Pure.pure (⟨subcommand, span⟩ : RunClause))
        (subcommand' >>= fun subcommand => span start.offset subcommand.span.stop >>= fun span =>
          Pure.pure (⟨subcommand, span⟩ : RunClause)) := by
    intro subcommand subcommand' hsubcommand
    refine hsubcommand.bind (fun subcommand hdeep => ?_) fun subcommand hdeep => ?_
    · exact .andThen fun span => .pure (Nat.succ_lt_succ hdeep)
    · refine .plain_bind (.span _ _) fun span => .pure fun h => ?_
      exact hdeep (Nat.lt_of_succ_lt_succ h)
  refine .plain_bind .skipTrivia fun _ => .plain_bind .here fun next => ?_
  dsimp only
  split
  · exact hclose (.map (macroCommand_limits harguments true))
  · refine hclose (.map ((command_limits harguments inMacro).of_iff fun command => ?_))
    rw [subcommandOf_nest]

end Commands

/-! ### Run clauses -/

/-- Widening an error does not change what it is about. -/
theorem wideningTooDeep_limits {start : Cursor} {clause clause' : Parser RunClause}
    {deep : RunClause → Prop} (hclause : Limits cut wide narrow deep clause clause') :
    Limits cut wide narrow deep (wideningTooDeep start clause) (wideningTooDeep start clause') := by
  have hfails : ∀ error s c, ∃ error',
      wideningTooDeep start (fail error) s c = .failed error' [] ∧ error'.cause = error.cause := by
    intro error s c
    obtain ⟨error', hrun, hcause, -⟩ :=
      @exists_wideningTooDeep_failed s c start (fail error) error [] rfl
    exact ⟨error', hrun, hcause⟩
  refine hclause.orElse (fun error c => ?_) (fun error c => ?_) fun _ error c => ?_
  · obtain ⟨cause, place⟩ := error
    cases cause with
    | nestingTooDeep limit =>
        dsimp only
        split
        · exact (Plain.failAt _ _ _).uniform wide narrow c
        · rfl
    | _ => rfl
  · obtain ⟨error', hrun, -⟩ := hfails error narrow c
    intro value log next hdone
    cases hdone.symm.trans ((Outcome.after_nil _).symm.trans hrun)
  · obtain ⟨error', hrun, hcause⟩ := hfails error narrow c
    exact ⟨error', (Outcome.after_nil _).symm.trans hrun, hcause⟩

/-- Arguments are parsed alike if containers and run clauses are. -/
theorem argumentsOf_limits {inside inside' : Containers}
    {clause clause' : Cursor → Parser RunClause} (h : Settings.Compared cut wide narrow)
    (hinside : inside.Limits cut wide narrow room inside')
    (hclause : ∀ start, Limits cut wide narrow (fun clause => room < clause.nest) (clause start)
      (clause' start)) (inMacro : Bool) :
    Limits cut wide narrow (fun arguments => room < Argument.allNest arguments)
      (argumentsOf inside clause inMacro) (argumentsOf inside' clause' inMacro) := by
  refine .plain_bind .here fun start => argumentList_limits h (argument_limits hinside ?_)
  exact fun start => wideningTooDeep_limits (hclause start)

variable {α : Type}

/-! ### Statements -/

section Statements

variable {arguments arguments' : Bool → Parser (List Argument)}
  (harguments : ∀ inMacro, Limits cut wide narrow
    (fun arguments => room < Argument.allNest arguments) (arguments inMacro) (arguments' inMacro))

include harguments

/-- Macro statements are parsed alike unless they nest too deep. -/
theorem macroStatement_limits :
    Limits cut wide narrow (fun statement => room < statement.nest)
      (macroStatement (arguments true)) (macroStatement (arguments' true)) := by
  refine .plain_bind .here fun start =>
    (macroCommand_limits harguments true).bind (fun command hdeep => ?_) fun command hdeep => ?_
  · refine .andThen fun text => ?_
    split
    · exact .andThen fun _ => .pure hdeep
    · exact .pure hdeep
  · refine .plain_bind (.slice _ _ _) fun text => ?_
    split
    · exact .uniform_bind (.log _) fun _ => .pure hdeep
    · exact .pure hdeep

/-- Statements are parsed alike unless they nest too deep. -/
theorem statement_limits :
    Limits cut wide narrow (fun statement => room < statement.nest) (statement arguments)
      (statement arguments') := by
  refine .plain_bind .here fun start => ?_
  split
  · exact .plain_bind plain_comment fun _ => .pure (Nat.not_lt_zero room)
  · exact macroStatement_limits harguments
  · split
    · exact (command_limits harguments false).bind (fun _ h => .pure h) fun _ h => .pure h
    · exact .failAt _ _ _
  · exact .failAt _ _ _

/-- Statements and comments are parsed alike unless they nest too deep. -/
theorem anyStatement_limits (h : Settings.Compared cut wide narrow) :
    Limits cut wide narrow (fun statement => room < statement.nest) (anyStatement arguments)
      (anyStatement arguments') := by
  have hany := (statement_limits harguments).orRecover h uniform_recoverStatement fun error =>
    .andThen fun _ => .andThen fun _ => .andThen fun _ => .andThen fun _ =>
      .pure (Nat.not_lt_zero room)
  refine .plain_bind .here fun start => hany.bind (fun statement hdeep => ?_)
    fun statement hdeep => ?_
  · exact .andThen fun _ => .pure hdeep
  · exact .uniform_bind (.log _) fun _ => .pure hdeep

/-- Several statements are parsed alike unless one of them nests too deep. -/
theorem statements_limits (h : Settings.Compared cut wide narrow) (fuel : Nat) :
    Limits cut wide narrow (fun statements => room < deepest Statement.nest statements)
      (statements arguments fuel) (statements arguments' fuel) := by
  induction fuel with
  | zero => exact .breakOff _
  | succ fuel ih =>
      rw [statements, statements]
      refine .plain_bind .skipTrivia fun _ => .plain_bind .here fun start => ?_
      split
      · exact .pure (Nat.not_lt_zero room)
      · exact .plain_bind (.take 1) fun _ => ih
      · refine (anyStatement_limits harguments h).bind (fun first hdeep => ?_) fun first hdeep => ?_
        · exact .andThen fun others => .pure (lt_deepest_cons_iff.mpr (.inl hdeep))
        · refine ih.bind (fun others hothers => .pure ?_) fun others hothers => .pure ?_
          · exact lt_deepest_cons_iff.mpr (.inr hothers)
          · exact fun h => (lt_deepest_cons_iff.mp h).elim hdeep hothers

end Statements

/-! ### Fewer levels -/

/-- With no level left, every container is too deep. -/
theorem containerTooDeep_limits {p : Parser α} {deep : α → Prop} (hdeep : ∀ value, deep value) :
    Limits True wide narrow deep p containerTooDeep :=
  .of_tooDeep trivial (.of_forall hdeep) fun _ => ⟨_, _, containerTooDeep_run, rfl⟩

/-- The parsers of containers with few levels left and with many. -/
theorem containers_limits (h : Settings.Compared True wide narrow) {few many : Nat}
    (hle : few ≤ many) : (containers many).Limits True wide narrow few (containers few) := by
  induction few generalizing many with
  | zero =>
      constructor
      · exact containerTooDeep_limits NbtList.nest_pos
      · exact containerTooDeep_limits NbtCompound.nest_pos
  | succ few ih =>
      obtain ⟨many, rfl⟩ : ∃ m, many = m + 1 := ⟨many - 1, by omega⟩
      have hinside := ih (Nat.le_of_succ_le_succ hle)
      have hvalue : Limits True wide narrow (fun value => few < value.nest) (value many)
          (value few) := by
        rw [value_eq, value_eq]
        exact valueOf_limits h hinside.list hinside.compound
      constructor
      · exact listOf_limits hvalue
      · exact compoundOf_limits hvalue

/-- The parsers of arguments with few levels left and with many. -/
theorem arguments_limits (h : Settings.Compared True wide narrow) {few many : Nat}
    (hle : few ≤ many) (inMacro : Bool) :
    Limits True wide narrow (fun arguments => few < Argument.allNest arguments)
      (arguments many inMacro) (arguments few inMacro) := by
  induction few generalizing many inMacro with
  | zero =>
      obtain ⟨clause, hmany⟩ := exists_arguments_eq many inMacro
      rw [hmany, arguments_zero]
      refine argumentsOf_limits h (containers_limits h hle) (fun start => ?_) inMacro
      exact .of_tooDeep trivial (.of_forall RunClause.nest_pos) fun _ =>
        ⟨_, _, tooDeep_run start, rfl⟩
  | succ few ih =>
      obtain ⟨many, rfl⟩ : ∃ m, many = m + 1 := ⟨many - 1, by omega⟩
      rw [arguments_succ, arguments_succ]
      refine argumentsOf_limits h (containers_limits h hle) (fun start => ?_) inMacro
      exact runClause_limits (ih (Nat.le_of_succ_le_succ hle)) start

end Parser

/-! ### Strict parses -/

/-- Two strict parses of one text: the one with the smaller limit does the same as the other, or
fails because something nests too deep. -/
theorem Document.run_limited (text : String) {few many : ParseOptions}
    (hle : few.maxDepth ≤ many.maxDepth) :
    (run .strict many text).Limited True few.maxDepth
      (fun document => few.maxDepth < document.nest) (run .strict few text) := by
  have h : Settings.Compared True ⟨many.maxDepth, .strict⟩ ⟨few.maxDepth, .strict⟩ :=
    ⟨rfl, fun _ => rfl⟩
  rw [run, run, Parser.document_run, Parser.document_run]
  refine Parser.Limits.bind (Parser.statements_limits (Parser.arguments_limits h hle) h _)
    (fun statements hdeep => ?_) (fun statements hdeep => ?_) _
  · exact .pure hdeep
  · exact .pure hdeep

end Mcfunction
