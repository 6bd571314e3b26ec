import Mcfunction.Proofs.Parser.Document

/-!
# Strict and Tolerant Parsing

A strict parse stops at the first error of a text, a tolerant one reports all of them. The two
share their parsers, and `Parser.document_reads` follows both runs of a document side by side;
what is left to see is that a tolerant parse always ends with a document, and that the
diagnostics tell the logged errors in order.

## Main results

* `Document.exists_run_tolerant`: a tolerant parse succeeds, and what it gives stands in the
  text.
* `Document.exists_parses`: what both parses of a text give.
* `parse_agrees_parseTolerant`: a strict parse succeeds exactly when the tolerant parse reports
  no error, and then with the same document; otherwise it fails with the first error reported.
-/

namespace Mcfunction

/-! ### The diagnostics of a log -/

/-- The code of every cause is that of an error. -/
theorem Cause.code_severity (cause : Cause) : cause.code.severity = .error := by
  cases cause with
  | lexical fault => cases fault <;> rfl
  | _ => rfl

/-- What a parse reports as an error is one. -/
theorem ParseError.toDiagnostic_isError (error : ParseError) : error.toDiagnostic.isError := by
  have hseverity : error.toDiagnostic.severity = .error := error.cause.code_severity
  rw [Diagnostic.isError, hseverity]
  rfl

/-- An event that tells of an error has the diagnostic of the error. -/
theorem Event.diagnostic?_of_error {event : Event} {error : ParseError}
    (h : event.error? = some error) : event.diagnostic? = some error.toDiagnostic := by
  cases event <;> cases h <;> rfl

/-- An event that reports no error reports nothing, or a warning. -/
theorem Event.isError_of_diagnostic? {event : Event} {diagnostic : Diagnostic}
    (h : event.error? = none) (hdiagnostic : event.diagnostic? = some diagnostic) :
    diagnostic.isError = false := by
  cases event <;> cases h <;> cases hdiagnostic
  rfl

/-- The first error among the diagnostics is the first that was logged. -/
theorem find?_diagnosticsOf (log : List Event) :
    (diagnosticsOf log).find? Diagnostic.isError =
      (firstError? log).map ParseError.toDiagnostic := by
  induction log with
  | nil => rfl
  | cons event log ih =>
      rw [diagnosticsOf, firstError?, List.findSome?_cons]
      rcases herror : event.error? with _ | error
      · rcases hdiagnostic : event.diagnostic? with _ | diagnostic
        · rw [List.filterMap_cons_none hdiagnostic]
          exact ih
        · rw [List.filterMap_cons_some hdiagnostic,
            List.find?_cons_of_neg (by simp [Event.isError_of_diagnostic? herror hdiagnostic])]
          exact ih
      · rw [List.filterMap_cons_some (Event.diagnostic?_of_error herror),
          List.find?_cons_of_pos error.toDiagnostic_isError]
        rfl

/-- A result has errors if and only if an error has been logged. -/
theorem hasErrors_eq (document : Document) (log : List Event) :
    (ParseResult.mk document (diagnosticsOf log)).hasErrors = (firstError? log).isSome := by
  have h : ((diagnosticsOf log).find? Diagnostic.isError).isSome =
      (diagnosticsOf log).any Diagnostic.isError := List.isSome_find?
  rw [find?_diagnosticsOf, Option.isSome_map] at h
  exact h.symm

/-! ### Tolerant parses do not fail -/

namespace Parser

variable {α β : Type} {s : Settings} {limit : Nat}

/-- No run of the parser fails. -/
def NeverFails (s : Settings) (p : Parser α) : Prop :=
  ∀ c error log, p s c ≠ .failed error log

/-- Two steps never fail if neither does. -/
theorem NeverFails.bind {p : Parser α} {f : α → Parser β} (hp : NeverFails s p)
    (hf : ∀ value, NeverFails s (f value)) : NeverFails s (p >>= f) := by
  intro c error log h
  rw [bind_run] at h
  cases hrun : p s c with
  | done value earlier next =>
      rw [hrun, Outcome.andThen_done] at h
      cases hnext : f value s next with
      | done value' log' next' => simp [hnext] at h
      | failed error' log' => exact hf value next error' log' hnext
      | broken fault => simp [hnext, Outcome.after] at h
  | failed error' log' => exact hp c error' log' hrun
  | broken fault => simp [hrun, Outcome.andThen] at h

/-- Alternatives never fail if the handler does not. -/
theorem NeverFails.orElse {p : Parser α} {handler : ParseError → Parser α}
    (h : ∀ error, NeverFails s (handler error)) : NeverFails s (orElse p handler) := by
  intro c error log hfailed
  rw [Parser.orElse] at hfailed
  cases hrun : p s c with
  | done value log' next => simp [hrun] at hfailed
  | failed error' log' =>
      simp only [hrun] at hfailed
      cases hnext : handler error' s c with
      | done value log' next => simp [hnext] at hfailed
      | failed error'' log'' => exact h error' c error'' log'' hnext
      | broken fault => simp [hnext, Outcome.after] at hfailed
  | broken fault => simp [hrun] at hfailed

/-- A value never fails. -/
theorem neverFails_pure (value : α) : NeverFails s (Pure.pure value) := by
  rintro c error log ⟨⟩

/-- A broken promise is not a failure. -/
theorem neverFails_breakOff (fault : Fault) : NeverFails s (breakOff fault : Parser α) := by
  rintro c error log ⟨⟩

/-- Asking for the place never fails. -/
theorem neverFails_here : NeverFails s here := by
  rintro c error log ⟨⟩

/-- Asking for the settings never fails. -/
theorem neverFails_settings : NeverFails s settings := by
  rintro c error log ⟨⟩

/-- Logging an event never fails. -/
theorem neverFails_log (event : Event) : NeverFails s (log event) := by
  rintro c error log ⟨⟩

/-- Moving to a place never fails. -/
theorem neverFails_moveTo (target : Cursor) : NeverFails s (moveTo target) := by
  rintro c error log ⟨⟩

/-- Taking characters never fails. -/
theorem neverFails_take (count : Nat) : NeverFails s (take count) := by
  refine neverFails_here.bind fun start => ?_
  split
  · exact neverFails_moveTo _
  · exact neverFails_breakOff _

/-- Making a span never fails. -/
theorem neverFails_span (start stop : Nat) : NeverFails s (span start stop) := by
  rw [span]
  cases Span.between start stop with
  | error fault => exact neverFails_breakOff fault
  | ok value => exact neverFails_pure value

/-- Going to an offset never fails. -/
theorem neverFails_goTo (offset : Nat) : NeverFails s (goTo offset) := by
  refine neverFails_here.bind fun start => ?_
  split
  · exact neverFails_moveTo _
  · exact neverFails_breakOff _

/-- Recovery never fails. -/
theorem neverFails_recover (error : ParseError) : NeverFails s (recover error) :=
  neverFails_here.bind fun _ => (neverFails_span _ _).bind fun _ => (neverFails_log _).bind
    fun _ => (neverFails_goTo _).bind fun _ => neverFails_pure _

/-- In tolerant mode, what leaves a placeholder on errors never fails. -/
theorem neverFails_orPlaceholder (p : Parser α) (placeholder : ErrorNode → α) :
    NeverFails ⟨limit, .tolerant⟩ (orPlaceholder p placeholder) := by
  refine .orElse fun error => ?_
  intro c error' log h
  rw [bind_done settings_run] at h
  exact (neverFails_recover error).bind (fun _ => neverFails_pure _) c error' log h

/-- In tolerant mode every argument that cannot be read gets a placeholder. -/
theorem neverFails_argumentList (argument : Parser Argument) (afterError : Bool) (fuel : Nat) :
    NeverFails ⟨limit, .tolerant⟩ (argumentList argument afterError fuel) := by
  induction fuel generalizing afterError with
  | zero => exact neverFails_breakOff _
  | succ fuel ih =>
      refine neverFails_here.bind fun gap => (neverFails_here.bind fun _ => neverFails_take _).bind
        fun _ => neverFails_here.bind fun start => ?_
      split
      · exact (neverFails_moveTo _).bind fun _ => neverFails_pure _
      · exact (neverFails_orPlaceholder _ _).bind fun first =>
          (ih _).bind fun _ => neverFails_pure _

/-- In tolerant mode lists of arguments never fail. -/
theorem neverFails_arguments (room : Nat) (inMacro : Bool) :
    NeverFails ⟨limit, .tolerant⟩ (arguments room inMacro) := by
  cases room <;> exact neverFails_here.bind fun _ => neverFails_argumentList _ _ _

/-- The recovery of a statement never fails. -/
theorem neverFails_recoverStatement (error : ParseError) :
    NeverFails s (recoverStatement error) :=
  neverFails_here.bind fun _ => (neverFails_log _).bind fun _ => (neverFails_take _).bind fun _ =>
    (neverFails_span _ _).bind fun _ => neverFails_pure _

/-- In tolerant mode every line that is no statement gets a placeholder. -/
theorem neverFails_anyStatement (arguments : Bool → Parser (List Argument)) (limit : Nat) :
    NeverFails ⟨limit, .tolerant⟩ (anyStatement arguments) := by
  refine neverFails_here.bind fun start => .bind (.orElse fun error => ?_) fun statement =>
    (neverFails_log _).bind fun _ => neverFails_pure _
  intro c error' log h
  rw [bind_done settings_run] at h
  exact neverFails_recoverStatement error c error' log h

/-- In tolerant mode statements never fail, whatever parses their arguments. -/
theorem neverFails_statements (arguments : Bool → Parser (List Argument)) (limit fuel : Nat) :
    NeverFails ⟨limit, .tolerant⟩ (statements arguments fuel) := by
  induction fuel with
  | zero => exact neverFails_breakOff _
  | succ fuel ih =>
      refine (neverFails_here.bind fun _ => neverFails_take _).bind fun _ =>
        neverFails_here.bind fun cursor => ?_
      split
      · exact neverFails_pure _
      · exact (neverFails_take 1).bind fun _ => ih
      · exact (neverFails_anyStatement arguments limit).bind fun _ =>
          ih.bind fun _ => neverFails_pure _

/-- In tolerant mode documents never fail. -/
theorem neverFails_document (limit : Nat) : NeverFails ⟨limit, .tolerant⟩ document :=
  neverFails_settings.bind fun _ => neverFails_here.bind fun _ =>
    (neverFails_statements _ limit _).bind fun _ => neverFails_pure _

end Parser

/-! ### Both parses of a text -/

namespace Document

variable (text : String) (options : ParseOptions)

/-- The runs of a text in both modes. -/
theorem run_lockstep :
    Outcome.Lockstep (.start text)
      (fun document _ =>
        StatementsAt (ArgumentsAt options.maxDepth) (.start text) document.statements)
      (run .strict options text) (run .tolerant options text) :=
  Parser.document_reads (.start text)

/-- A tolerant parse ends with a document, whose statements stand in the text. -/
theorem exists_run_tolerant :
    ∃ document log next, run .tolerant options text = .done document log next ∧
      StatementsAt (ArgumentsAt options.maxDepth) (.start text) document.statements := by
  have hsound := (run_lockstep text options).sound_tolerant
  generalize hrun : run .tolerant options text = outcome at hsound
  cases hsound with
  | done h => exact ⟨_, _, _, rfl, h⟩
  | failed => exact absurd hrun (Parser.neverFails_document _ _ _ _)

/-- Both parses of a text: the tolerant one gives a document, and the strict one the same document
or the first error that the tolerant one logged. -/
theorem exists_parses :
    ∃ document log next, run .tolerant options text = .done document log next ∧
      StatementsAt (ArgumentsAt options.maxDepth) (.start text) document.statements ∧
      (parse text options = .ok (.ok document) ∧ firstError? log = none ∨
        ∃ error, parse text options = .ok (.error error) ∧ firstError? log = some error) := by
  have hlockstep := run_lockstep text options
  obtain ⟨document, log, next, hrun, hstatements⟩ := exists_run_tolerant text options
  refine ⟨document, log, next, hrun, hstatements, ?_⟩
  rw [hrun] at hlockstep
  rw [parse]
  generalize run .strict options text = strict at hlockstep ⊢
  cases hlockstep with
  | done hlog _ => exact .inl ⟨rfl, hlog⟩
  | recovered _ hfirst _ => exact .inr ⟨_, rfl, hfirst⟩

end Document

/-- The strict parse of a text succeeds exactly when the tolerant parse reports no error, and
then both give the same document. Otherwise the strict parse fails with an error whose
diagnostic is the first error that the tolerant parse reports. -/
theorem parse_agrees_parseTolerant (text : String) (options : ParseOptions) :
    ∃ outcome result, Document.parse text options = .ok outcome ∧
      Document.parseTolerant text options = .ok result ∧
      ((∃ document, outcome = .ok document) ↔ result.hasErrors = false) ∧
      (∀ document, outcome = .ok document → document = result.document) ∧
      ∀ error, outcome = .error error →
        result.diagnostics.find? Diagnostic.isError = some error.toDiagnostic := by
  have hlockstep := Document.run_lockstep text options
  obtain ⟨document, log, next, htolerant, -⟩ := Document.exists_run_tolerant text options
  rw [htolerant] at hlockstep
  rw [Document.parse, Document.parseTolerant, htolerant]
  generalize Document.run .strict options text = strict at hlockstep ⊢
  cases hlockstep with
  | done hlog _ =>
      refine ⟨.ok document, _, rfl, rfl, ?_, ?_, ?_⟩
      · simp [hasErrors_eq, hlog]
      · rintro _ ⟨⟩
        rfl
      · rintro error ⟨⟩
  | @recovered error log' _ _ hfirst _ =>
      have hfirst : firstError? log = some error := hfirst
      refine ⟨.error error, _, rfl, rfl, ?_, ?_, ?_⟩
      · simp [hasErrors_eq, hfirst]
      · rintro document ⟨⟩
      · rintro _ ⟨⟩
        rw [find?_diagnosticsOf, hfirst]
        rfl

end Mcfunction
