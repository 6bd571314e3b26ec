import Mcfunction.Proofs.Modes
import Mcfunction.Proofs.Spans

/-!
# What the First Character of a Statement Makes It

The first character of a line says which parser reads it. In tolerant mode a line becomes a
placeholder when that parser fails; but comments never fail, and neither does a command after
its first letter, since all errors in its arguments are caught there. Only a `$` leaves open
whether a macro command follows.

## Main results

* `Parser.statements_fit`: the statements of a tolerant run are what their first characters make
  them.
-/

namespace Mcfunction

/-- What the first character makes of a statement. -/
def Statement.Fits (x : Char) (statement : Statement) : Prop :=
  if x = '$' then statement.kind = .macroCommand ∨ statement.kind = .error
  else if x = '#' then statement.kind = .comment
  else if x.isLower then statement.kind = .command
  else statement.kind = .error

namespace Parser

variable {α β : Type} {s : Settings} {limit : Nat} {c d : Cursor} {x : Char}

/-! ### Commands never fail -/

/-- After its first letter a command does not fail. -/
theorem command_ne_failed {arguments : Parser (List Argument)} (harguments : NeverFails s arguments)
    (hpeek : c.peek = some x) (hlower : x.isLower) (error : ParseError) (log : List Event) :
    command arguments s c ≠ .failed error log := by
  obtain ⟨tail, hrest⟩ := List.head?_eq_some_iff.mp hpeek
  have hname : Scan.commandName c.rest = some (1 + Scan.run Scan.isNameChar tail) := by
    rw [hrest, Scan.commandName, if_pos hlower]
  rw [command, bind_done here_run, bind_done (commandName_run hname)]
  refine harguments.bind (fun args => .bind ?_ fun _ => (neverFails_span _ _).bind fun _ =>
    neverFails_pure _) _ error log
  rw [commandEnd]
  split
  · exact neverFails_pure _
  · exact neverFails_here.bind fun _ => neverFails_pure _

/-! ### One statement -/

variable {arguments : Bool → Parser (List Argument)} {statement : Statement} {log : List Event}

/-- The parser that the first character of a statement chooses. -/
theorem statement_run (hpeek : c.peek = some x) :
    Parser.statement arguments s c =
      if x = '#' then (Statement.comment <$> comment) s c
      else if x = '$' then macroStatement (arguments true) s c
      else if x.isLower then (Statement.command <$> command (arguments false)) s c
      else failAt (.unexpectedCharacter x) c.offset c.charEnd s c := by
  rw [Parser.statement, bind_done here_run, hpeek]
  by_cases hhash : x = '#'
  · subst hhash
    rfl
  by_cases hdollar : x = '$'
  · subst hdollar
    rfl
  simp only [hhash, hdollar, if_false]
  by_cases hlower : x.isLower
  · simp only [hlower, if_true]
    rfl
  · simp only [hlower]
    rfl

theorem fits_comment {line : Comment} : (Statement.comment line).Fits '#' := rfl

theorem fits_macroCommand {line : MacroCommand} : (Statement.macroCommand line).Fits '$' :=
  .inl rfl

theorem fits_command {plain : Command} (hhash : x ≠ '#') (hdollar : x ≠ '$')
    (hlower : x.isLower) : (Statement.command plain).Fits x := by
  rw [Statement.Fits, if_neg hdollar, if_neg hhash, if_pos hlower]
  rfl

/-- A statement that is read is what its first character makes it. -/
theorem fits_of_statement (hpeek : c.peek = some x)
    (h : Parser.statement arguments s c = .done statement log d) : statement.Fits x := by
  rw [statement_run hpeek] at h
  split at h
  · rename_i hhash
    subst hhash
    exact (Returns.andThen (p := comment) fun _ => .pure fits_comment) _ _ _ _ _ h
  split at h
  · rename_i hdollar
    subst hdollar
    refine (Returns.andThen fun _ => .andThen fun _ => .andThen fun _ => ?_) _ _ _ _ _ h
    split
    · exact .andThen fun _ => .pure fits_macroCommand
    · exact .pure fits_macroCommand
  split at h
  · rename_i hhash hdollar hlower
    exact (Returns.andThen (p := command (arguments false)) fun _ =>
      .pure (fits_command hhash hdollar hlower)) _ _ _ _ _ h
  · have hnone : Returns (failAt (.unexpectedCharacter x) c.offset c.charEnd : Parser Statement)
        fun _ => False := .failAt
    exact (hnone _ _ _ _ _ h).elim

/-- A line whose parser fails starts with a `$`, or with what starts no statement. -/
theorem fits_of_statement_failed (harguments : NeverFails s (arguments false))
    (hpeek : c.peek = some x) {error : ParseError}
    (h : Parser.statement arguments s c = .failed error log) (node : ErrorNode) :
    (Statement.error node).Fits x := by
  rw [statement_run hpeek] at h
  split at h
  · rw [map_eq_bind, bind_done comment_run] at h
    cases h
  rename_i hhash
  split at h
  · rename_i hdollar
    subst hdollar
    exact .inr rfl
  rename_i hdollar
  split at h
  · rename_i hlower
    rw [map_eq_bind, bind_run] at h
    cases hrun : command (arguments false) s c with
    | done plain log d => simp [hrun, pure_run] at h
    | failed error log => exact absurd hrun (command_ne_failed harguments hpeek hlower error log)
    | broken fault => simp [hrun, Outcome.andThen] at h
  · rename_i hlower
    rw [Statement.Fits, if_neg hdollar, if_neg hhash, if_neg hlower]
    rfl

/-- In tolerant mode a line is what its first character makes it, or a placeholder. -/
theorem fits_of_anyStatement (harguments : NeverFails ⟨limit, .tolerant⟩ (arguments false))
    (hpeek : c.peek = some x)
    (h : anyStatement arguments ⟨limit, .tolerant⟩ c = .done statement log d) :
    statement.Fits x := by
  rw [anyStatement, bind_done here_run] at h
  obtain ⟨first, _, e, _, hfirst, hlog, -⟩ := Outcome.andThen_eq_done h
  have hdone : Outcome.done first [.statement _ first.kind] e = .done statement _ d := hlog
  obtain ⟨rfl, -⟩ := Outcome.done.inj hdone
  rw [orElse] at hfirst
  cases hrun : Parser.statement arguments ⟨limit, .tolerant⟩ c with
  | done value log' next =>
      simp only [hrun] at hfirst
      obtain ⟨rfl, -⟩ := Outcome.done.inj hfirst
      exact fits_of_statement hpeek hrun
  | failed error log' =>
      simp only [hrun] at hfirst
      rw [bind_done settings_run] at hfirst
      change (recoverStatement error _ c).after log' = _ at hfirst
      rw [recoverStatement_run, Outcome.after_done] at hfirst
      obtain ⟨rfl, -⟩ := Outcome.done.inj hfirst
      exact fits_of_statement_failed harguments hpeek hrun _
  | broken fault => simp [hrun] at hfirst

/-! ### All statements -/

/-- The statement stands somewhere from `origin` on and is what its first character makes it. -/
def FitsFrom (origin : Cursor) (statement : Statement) : Prop :=
  ∃ a b x, origin ≤ a ∧ a < b ∧ statement.span = a.spanTo b ∧ a.peek = some x ∧
    statement.Fits x

/-- The statements of a tolerant run are what their first characters make them. -/
theorem statements_fit {origin : Cursor} {fuel : Nat} {found : List Statement}
    (horigin : origin ≤ c)
    (h : statements (Parser.arguments limit) fuel ⟨limit, .tolerant⟩ c = .done found log d) :
    ∀ statement ∈ found, FitsFrom origin statement := by
  induction fuel generalizing c found log with
  | zero => cases h
  | succ fuel ih =>
      have hstart := horigin.trans c.le_skipTrivia
      rcases hpeek : c.skipTrivia.peek with _ | x
      · rw [statements_run_nil hpeek] at h
        obtain ⟨rfl, -⟩ := Outcome.done.inj h
        exact List.forall_mem_nil _
      by_cases hline : x = '\n'
      · subst hline
        rw [statements_run_newline hpeek] at h
        exact ih (hstart.trans (Cursor.le_advance_of_peek hpeek)) h
      · obtain ⟨first, _, e, others, _, hfirst, hothers, rfl, -⟩ :=
          statements_eq_done_cons hpeek hline h
        have hend : Scan.atLineEnd c.skipTrivia.rest = false := Cursor.atLineEnd_of_peek hpeek hline
        have hplaced := ArgumentsAt.argumentsPlaced limit
        obtain ⟨hat⟩ : (Outcome.done first _ e).Sound _ (StatementAt (ArgumentsAt limit) _) :=
          hfirst ▸ (anyStatement_reads hplaced (arguments_reads limit) _).sound_tolerant
        obtain ⟨b, houtline, -⟩ := hat.outlined hplaced (ArgumentsAt.outlined limit)
          c.trivia_skipTrivia hend
        have hspan : first.span = c.skipTrivia.spanTo b := by
          rw [← first.outline_span, houtline.span_eq]
        have hfits := fits_of_anyStatement (neverFails_arguments limit false) hpeek hfirst
        refine List.forall_mem_cons.mpr ⟨⟨_, b, x, hstart, houtline.lt, hspan, hpeek, hfits⟩, ?_⟩
        exact ih (hstart.trans (hat.forward hplaced hend).1.le) hothers

end Parser

end Mcfunction
