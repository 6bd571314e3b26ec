import Mathlib.Data.List.Nodup
import Mcfunction.Proofs.Parser.Recoveries
import Mcfunction.Proofs.Spans
import Mcfunction.Proofs.Warnings.Text

/-!
# Macro Commands without Interpolations

The game refuses a macro line that has no interpolation, so a parse warns about it. The warning is
given by the text of the command and not by its tree: it is left out where `$(` stands anywhere in
that text. In a command without placeholders that is where the tree has an interpolation, and in
one more place: in a quoted string a backslash can stand before the `$(`, which then is no
interpolation. So each warning is right, but one can be missing.

## Main results

* `Parser.statements_warns`: a parse warns about the macro commands whose text has no `$(`, each
  once, and about nothing else.
* `parseTolerant_warns_iff`: when a tolerant parse warns about a macro command, in terms of its
  tree.
-/

namespace Mcfunction

/-! ### Warnings -/

/-- The statement that an event warns about, if it is a warning. -/
def Event.warned? : Event → Option Span
  | .neverInterpolated place => some place
  | .started _ _ | .recovered _ _ | .skippedStatement _ _ | .statement _ _ | .finished _ _ => none

/-- The statements that a log warns about, in order. -/
def warningsOf (log : List Event) : List Span :=
  log.filterMap Event.warned?

/-- The warning about the macro command at a place. -/
def Diagnostic.neverInterpolated (place : Span) : Diagnostic :=
  .ofCode .neverInterpolated "macro line has no $(...) interpolation" place

/-- Whether a diagnostic warns about the macro command at a place. -/
def Diagnostic.warnsAbout (place : Span) (diagnostic : Diagnostic) : Bool :=
  diagnostic.id == Code.neverInterpolated.id && diagnostic.span == some place

theorem warningsOf_append (log log' : List Event) :
    warningsOf (log ++ log') = warningsOf log ++ warningsOf log' :=
  List.filterMap_append

theorem warningsOf_of_isRecovery {log : List Event} (h : ∀ event ∈ log, event.isRecovery) :
    warningsOf log = [] := by
  refine List.filterMap_eq_nil_iff.mpr fun event hevent => ?_
  have hrecovery := h event hevent
  cases event <;> first | rfl | cases hrecovery

/-- The id of the warning is that of no error. -/
theorem ParseError.toDiagnostic_warnsAbout (error : ParseError) (place : Span) :
    error.toDiagnostic.warnsAbout place = false := by
  have hid : ∀ code : Code, code ≠ .neverInterpolated → code.id ≠ Code.neverInterpolated.id := by
    intro code hcode
    cases code <;> first | decide | exact absurd rfl hcode
  have hcode : error.cause.code ≠ .neverInterpolated := by
    intro heq
    have hseverity := error.cause.code_severity
    rw [heq] at hseverity
    cases hseverity
  have hne : error.toDiagnostic.id ≠ Code.neverInterpolated.id := hid _ hcode
  rw [Diagnostic.warnsAbout, beq_eq_false_iff_ne.mpr hne, Bool.false_and]

theorem Diagnostic.neverInterpolated_warnsAbout (warned place : Span) :
    (Diagnostic.neverInterpolated warned).warnsAbout place = (warned == place) := by
  simp [Diagnostic.warnsAbout, Diagnostic.neverInterpolated, Diagnostic.ofCode]

/-- The diagnostics that warn about a place are the warnings of the log about it. -/
theorem filter_warnsAbout_diagnosticsOf (log : List Event) (place : Span) :
    (diagnosticsOf log).filter (Diagnostic.warnsAbout place) =
      ((warningsOf log).filter (· == place)).map Diagnostic.neverInterpolated := by
  induction log with
  | nil => rfl
  | cons event log ih =>
      cases event with
      | started | statement | finished => exact ih
      | recovered error | skippedStatement error =>
          have hskip := Bool.eq_false_iff.mp (error.toDiagnostic_warnsAbout place)
          exact (List.filter_cons_of_neg hskip).trans ih
      | neverInterpolated warned =>
          have hwarned := Diagnostic.neverInterpolated_warnsAbout warned place
          show (Diagnostic.neverInterpolated warned :: diagnosticsOf log).filter _ =
            ((warned :: warningsOf log).filter _).map _
          rw [List.filter_cons, List.filter_cons, hwarned, ih]
          split
          · rfl
          · rfl

/-! ### Statements -/

/-- Whether the statement is a macro command whose text has no `$(`. -/
def Statement.isSilent (text : String) : Statement → Bool
  | .macroCommand line => !line.span.holdsInterpolation text
  | .command _ | .comment _ | .error _ => false

/-- The statement is warned about just if it is silent; a failure is no reason for a warning. -/
def Outcome.Warns (text : String) : Outcome Statement → Prop
  | .done statement log _ =>
    warningsOf log = if statement.isSilent text then [statement.span] else []
  | .failed _ log => warningsOf log = []
  | .broken _ => True

/-- Earlier events that are no warnings change nothing. -/
theorem Outcome.Warns.after {text : String} {outcome : Outcome Statement} {log : List Event}
    (h : outcome.Warns text) (hlog : warningsOf log = []) : (outcome.after log).Warns text := by
  have happend : ∀ later, warningsOf (log ++ later) = warningsOf later := by
    intro later
    rw [warningsOf_append, hlog, List.nil_append]
  cases outcome with
  | done => exact (happend _).trans h
  | failed => exact (happend _).trans h
  | broken => trivial

namespace Parser

variable {α : Type} {text : String} {limit fuel : Nat} {c d : Cursor}

/-- The tolerant run of `p` at `c` warns about the statement that it gives just if that is
silent. -/
def Warns (limit : Nat) (text : String) (c : Cursor) (p : Parser Statement) : Prop :=
  (p ⟨limit, .tolerant⟩ c).Warns text

namespace Warns

variable {p : Parser Statement}

theorem pure {statement : Statement} (h : statement.isSilent text = false) :
    Warns limit text c (Pure.pure statement) := by
  show warningsOf [] = _
  rw [h]
  rfl

/-- A statement that is never silent, read by a parser that warns about nothing. -/
theorem of_recovers (hp : Recovers p)
    (hsilent : Returns p fun statement => statement.isSilent text = false) :
    Warns limit text c p := by
  rw [Warns]
  cases hrun : p ⟨limit, .tolerant⟩ c with
  | done statement log e =>
      show warningsOf log = _
      rw [hsilent _ _ _ _ _ hrun]
      exact warningsOf_of_isRecovery (hp.of_done hrun)
  | failed error log => exact warningsOf_of_isRecovery (hp.of_failed hrun)
  | broken fault => trivial

/-- What follows a parser that warns about nothing. -/
theorem recovers_bind {q : Parser α} {f : α → Parser Statement} (hq : Recovers q)
    (hf : ∀ {value log e}, q ⟨limit, .tolerant⟩ c = .done value log e →
      Warns limit text e (f value)) : Warns limit text c (q >>= f) := by
  rw [Warns, bind_run]
  cases hrun : q ⟨limit, .tolerant⟩ c with
  | done value log e => exact (hf hrun).after (warningsOf_of_isRecovery (hq.of_done hrun))
  | failed error log => exact warningsOf_of_isRecovery (hq.of_failed hrun)
  | broken fault => trivial

/-- The rule for a parser whose errors another one takes care of. -/
theorem orElse {handler : ParseError → Parser Statement} (hp : Warns limit text c p)
    (hhandler : ∀ error, Warns limit text c (handler error)) :
    Warns limit text c (orElse p handler) := by
  rw [Warns] at hp
  rw [Warns, Parser.orElse]
  cases hrun : p ⟨limit, .tolerant⟩ c with
  | done statement log e =>
      rw [hrun] at hp
      exact hp
  | failed error log =>
      rw [hrun] at hp
      exact (hhandler error).after hp
  | broken fault => trivial

/-- Logging what is no warning about the statement. -/
theorem bind_log {event : Statement → Event} (hp : Warns limit text c p)
    (hevent : ∀ statement, (event statement).warned? = none) :
    Warns limit text c
      (p >>= fun statement => log (event statement) >>= fun _ => Pure.pure statement) := by
  rw [Warns] at hp
  rw [Warns, bind_run]
  cases hrun : p ⟨limit, .tolerant⟩ c with
  | done statement log e =>
      rw [hrun] at hp
      have hlast : warningsOf [event statement] = [] := List.filterMap_cons_none (hevent statement)
      show warningsOf (log ++ [event statement]) = _
      rw [warningsOf_append, hlast, List.append_nil]
      exact hp
  | failed error log =>
      rw [hrun] at hp
      exact hp
  | broken fault => trivial

end Warns

/-- What follows a parser that is certain to succeed. -/
theorem warns_bind_iff {q : Parser α} {f : α → Parser Statement} {value : α}
    (h : q ⟨limit, .tolerant⟩ c = .done value [] d) :
    Warns limit text c (q >>= f) ↔ Warns limit text d (f value) := by
  rw [Warns, bind_done h, Warns]

variable {arguments : Bool → Parser (List Argument)}
  {argumentsAt : Bool → Cursor → List Argument → Cursor → Prop}
  (hplaced : ∀ inMacro, ArgumentsPlaced (argumentsAt inMacro))
  (harguments : ∀ inMacro c, Reads limit c c (arguments inMacro) (argumentsAt inMacro c))
  (hrecovers : ∀ inMacro, Recovers (arguments inMacro))

include hplaced harguments hrecovers

theorem macroStatement_warns (htext : Cursor.start text ≤ c) (hdollar : c.peek = some '$') :
    Warns limit text c (macroStatement (arguments true)) := by
  rw [macroStatement, warns_bind_iff here_run]
  refine .recovers_bind (macroCommand_recovers hrecovers true) fun {command log e} hrun => ?_
  have hcommand := ((macroCommand_reads hplaced harguments true hdollar).returns hrun).placed
    (hplaced true)
  obtain ⟨n, hn, rfl⟩ := Cursor.le_iff_exists_advance.mp hcommand.le
  have hslice : slice c command.span.start command.span.stop ⟨limit, .tolerant⟩ (c.advance n) =
      .done (c.rest.take n) [] (c.advance n) := by
    rw [hcommand.span_eq]
    exact slice_run c.offset_eq_advance_zero (Nat.zero_le _) hn
  have hsilent : (Statement.macroCommand command).isSilent text =
      !holdsInterpolation (c.rest.take n) := by
    rw [Statement.isSilent, hcommand.span_eq,
      ((Cursor.Spells.advance hn).holds htext).holdsInterpolation]
  rw [warns_bind_iff hslice]
  split
  · rename_i hnone
    show [command.span] = _
    rw [hsilent, if_pos hnone]
    rfl
  · rename_i hsome
    exact .pure (hsilent.trans (Bool.eq_false_iff.mpr hsome))

theorem statement_warns (htext : Cursor.start text ≤ c) :
    Warns limit text c (statement arguments) := by
  rw [statement, warns_bind_iff here_run]
  split
  · exact .of_recovers (.of_plain (.bind plain_comment fun _ => .pure _))
      (.andThen fun _ => .pure rfl)
  · rename_i hpeek
    exact macroStatement_warns hplaced harguments hrecovers htext hpeek
  · split
    · exact .of_recovers ((command_recovers hrecovers false).bind_plain fun _ => .pure _)
        (.andThen fun _ => .pure rfl)
    · exact .of_recovers (.of_plain (.failAt _ _ _)) .failAt
  · exact .of_recovers (.of_plain (.failAt _ _ _)) .failAt

theorem anyStatement_warns (htext : Cursor.start text ≤ c) :
    Warns limit text c (anyStatement arguments) := by
  have hrecover : ∀ error, Warns limit text c (recoverStatement error) := by
    intro error
    rw [Warns, recoverStatement_run]
    rfl
  rw [anyStatement, warns_bind_iff here_run]
  refine .bind_log (.orElse (statement_warns hplaced harguments hrecovers htext)
    fun error => ?_) fun _ => rfl
  rw [warns_bind_iff settings_run]
  exact hrecover error

/-- The statements of a run that it warns about are the silent ones. -/
theorem statements_warns {found : List Statement} {log : List Event}
    (htext : Cursor.start text ≤ c)
    (hrun : statements arguments fuel ⟨limit, .tolerant⟩ c = .done found log d) :
    warningsOf log = (found.filter (Statement.isSilent text)).map Statement.span := by
  induction fuel generalizing c found log with
  | zero => cases hrun
  | succ fuel ih =>
      have hstart := htext.trans c.le_skipTrivia
      rcases hpeek : c.skipTrivia.peek with _ | x
      · rw [statements_run_nil hpeek] at hrun
        cases hrun
        rfl
      · by_cases hx : x = '\n'
        · subst hx
          rw [statements_run_newline hpeek] at hrun
          exact ih (hstart.trans (Cursor.le_advance_of_peek hpeek)) hrun
        · obtain ⟨first, earlier, e, others, later, hfirst, hothers, rfl, rfl⟩ :=
            statements_eq_done_cons hpeek hx hrun
          have hline := Cursor.atLineEnd_of_peek hpeek hx
          have hread := (anyStatement_reads hplaced harguments c.skipTrivia).returns hfirst
          have hnext := hstart.trans (hread.forward hplaced hline).1.le
          have hwarns : (Outcome.done first earlier e).Warns text := by
            rw [← hfirst]
            exact anyStatement_warns hplaced harguments hrecovers hstart
          have hwarns : warningsOf earlier =
              if first.isSilent text then [first.span] else [] := hwarns
          rw [warningsOf_append, hwarns, ih hnext hothers, List.filter_cons]
          split
          · rfl
          · rfl

end Parser

/-! ### Documents -/

theorem Document.run_warns {text : String} {options : ParseOptions} {document : Document}
    {log : List Event} {next : Cursor}
    (hrun : run .tolerant options text = .done document log next) :
    warningsOf log = (document.statements.filter (Statement.isSilent text)).map Statement.span := by
  rw [run, Parser.document_run, Parser.bind_run] at hrun
  obtain ⟨found, earlier, middle, later, hfound, hend, rfl⟩ := Outcome.andThen_eq_done hrun
  obtain ⟨rfl, rfl, rfl⟩ := Outcome.done.inj hend
  rw [List.append_nil]
  exact Parser.statements_warns (ArgumentsAt.argumentsPlaced options.maxDepth)
    (Parser.arguments_reads options.maxDepth) (Parser.arguments_recovers options.maxDepth) le_rfl
    hfound

/-- No two statements of a text have the same place. -/
theorem StatementsAt.nodup_spans {room : Nat} {c : Cursor} {statements : List Statement}
    (h : StatementsAt (ArgumentsAt room) c statements) :
    (statements.map Statement.span).Nodup := by
  obtain ⟨d, -, hrow⟩ := h.row (ArgumentsAt.argumentsPlaced room) (ArgumentsAt.outlined room)
  have hnodup := hrow.allAt.nodup_spans
  simpa only [List.map_map, Function.comp_def, Statement.outline_span] using hnodup

/-- Each of the statements stands somewhere from the first place on. -/
theorem StatementsAt.exists_mem {room : Nat} {origin c : Cursor} {statements : List Statement}
    (horigin : origin ≤ c) (h : StatementsAt (ArgumentsAt room) c statements) :
    ∀ statement ∈ statements, ∃ a b, origin ≤ a ∧
      StatementAt (ArgumentsAt room) a statement b := by
  induction h with
  | nil => exact List.forall_mem_nil _
  | @newline c _ hpeek _ ih =>
      exact ih (horigin.trans (c.le_skipTrivia.trans (Cursor.le_advance_of_peek hpeek)))
  | @cons c _ _ _ hline hfirst _ ih =>
      have hstart := horigin.trans c.le_skipTrivia
      have hforward := hfirst.forward (ArgumentsAt.argumentsPlaced room) hline
      exact List.forall_mem_cons.mpr
        ⟨⟨_, _, hstart, hfirst⟩, ih (hstart.trans hforward.1.le)⟩

/-- A tolerant parse warns about a macro command that it could read to its end just if no
interpolation stands in it and no quoted string in it has `$(` between its quotes. It warns once,
and with the span of the command. -/
theorem parseTolerant_warns_iff (text : String) (options : ParseOptions) :
    ∃ result, Document.parseTolerant text options = .ok result ∧
      ∀ command, .macroCommand command ∈ result.document.statements →
        placeholders command.nodes = [] →
        result.diagnostics.filter (Diagnostic.warnsAbout command.span) =
          if command.nodes.any Node.showsInterpolation then []
          else [Diagnostic.neverInterpolated command.span] := by
  obtain ⟨document, log, next, hrun, hstatements⟩ := Document.exists_run_tolerant text options
  refine ⟨⟨document, diagnosticsOf log⟩, by rw [Document.parseTolerant, hrun], ?_⟩
  intro command hmem hnone
  have hmem : Statement.macroCommand command ∈ document.statements := hmem
  have hwarnings := Document.run_warns hrun
  have hnodup := hstatements.nodup_spans
  have hsilent : (Statement.macroCommand command).isSilent text =
      !command.nodes.any Node.showsInterpolation := by
    obtain ⟨a, b, htext, hat⟩ := hstatements.exists_mem le_rfl _ hmem
    cases hat with
    | macroCommand h => exact congrArg not (h.holdsInterpolation_eq htext hnone)
  have hwarned : command.span ∈ warningsOf log ↔
      (Statement.macroCommand command).isSilent text := by
    rw [hwarnings, List.mem_map]
    constructor
    · rintro ⟨statement, hstatement, hspan⟩
      obtain ⟨hin, hsilent⟩ := List.mem_filter.mp hstatement
      obtain rfl := List.inj_on_of_nodup_map hnodup hin hmem hspan
      exact hsilent
    · exact fun hsilent => ⟨_, List.mem_filter.mpr ⟨hmem, hsilent⟩, rfl⟩
  have honce : (warningsOf log).Nodup := by
    rw [hwarnings]
    exact hnodup.sublist (List.filter_sublist.map _)
  show (diagnosticsOf log).filter _ = _
  rw [filter_warnsAbout_diagnosticsOf, List.filter_beq, honce.count]
  rw [hsilent] at hwarned
  cases hshows : command.nodes.any Node.showsInterpolation with
  | true =>
      rw [hshows] at hwarned
      rw [if_neg (hwarned.not.mpr (by decide))]
      rfl
  | false =>
      rw [hshows] at hwarned
      rw [if_pos (hwarned.mpr rfl)]
      rfl

/-- A macro command without an interpolation that is not warned about: its only argument is a string
in which a backslash escapes the `$`. -/
theorem parseTolerant_warns_iff_escaped :
    ∃ result command, Document.parseTolerant "$say \"\\$(x)\"" {} = .ok result ∧
      .macroCommand command ∈ result.document.statements ∧ placeholders command.nodes = [] ∧
      (∀ node ∈ command.nodes, node.interpolations = []) ∧
      result.diagnostics.filter (Diagnostic.warnsAbout command.span) = [] := by
  obtain ⟨result, hresult, hwarns⟩ := parseTolerant_warns_iff "$say \"\\$(x)\"" {}
  have hstatements : (Document.parseTolerant "$say \"\\$(x)\"" {}).map
      (·.document.statements.map fun
        | .macroCommand line =>
          ((placeholders line.nodes).isEmpty, line.nodes.all (·.interpolations.isEmpty),
            line.nodes.any Node.showsInterpolation)
        | _ => (false, false, false)) = .ok [(true, true, true)] := by
    decide +kernel
  rw [hresult] at hstatements
  obtain ⟨statement, hstatement, hshape⟩ :=
    List.map_eq_singleton_iff.mp (Except.ok.inj hstatements)
  cases statement with
  | macroCommand command =>
      obtain ⟨hnone, hplain, hshows⟩ : _ ∧ _ ∧ _ := by
        simpa only [Prod.mk.injEq, List.isEmpty_iff, List.all_eq_true] using hshape
      have hmem : .macroCommand command ∈ result.document.statements := by
        rw [hstatement]
        exact List.mem_singleton_self _
      exact ⟨result, command, hresult, hmem, hnone, hplain,
        (hwarns _ hmem hnone).trans (if_pos hshows)⟩
  | command | comment | error => cases hshape

end Mcfunction
