import Mcfunction.Lookup
import Mcfunction.Proofs.Placeholders.Command
import Mcfunction.Proofs.Placeholders.Order
import Mcfunction.Proofs.Spans

/-!
# Placeholders and Reported Errors

A document has a placeholder exactly when the parse reports an error. Each placeholder has the
message of a reported error of its own, and each reported error starts in the statement that is
left where some placeholder starts. A strict parse gives a document without placeholders.

## Main results

* `parseTolerant_tells`: the placeholders of every tolerant parse tell its errors.
-/

namespace Mcfunction

/-- How the placeholders in the document of a parse and the errors among its diagnostics
correspond. -/
structure ParseResult.Tells (text : String) (result : ParseResult) : Prop where
  /-- The document has errors if a placeholder stands in it. -/
  hasErrors_iff : result.document.hasErrors = true ↔ placeholders result.document.nodes ≠ []
  /-- A placeholder stands in the document if one of the diagnostics is an error. -/
  ne_nil_iff : placeholders result.document.nodes ≠ [] ↔
    ∃ diagnostic ∈ result.diagnostics, diagnostic.isError
  /-- The placeholders stand in order and apart. -/
  ordered : (placeholders result.document.nodes).Pairwise fun node later =>
    node.span.stop ≤ later.span.start
  /-- Each placeholder has the message of an error of its own, in order. -/
  messages : ((placeholders result.document.nodes).map ErrorNode.message).Sublist
    ((result.diagnostics.filter Diagnostic.isError).map Diagnostic.message)
  /-- Each error starts between the start of some placeholder and the end of the statement that
  is left there. -/
  covered : ∀ diagnostic ∈ result.diagnostics, diagnostic.isError →
    ∃ span, diagnostic.span = some span ∧ ∃ node ∈ placeholders result.document.nodes,
      node.span.start ≤ span.start ∧
        span.start ≤ Lookup.skip Scan.statement text node.span.start

/-! ### The errors among the diagnostics -/

/-- The errors among the diagnostics are those that were logged. -/
theorem filter_diagnosticsOf (log : List Event) :
    (diagnosticsOf log).filter Diagnostic.isError =
      (errorsOf log).map ParseError.toDiagnostic := by
  induction log with
  | nil => rfl
  | cons event log ih =>
      rw [diagnosticsOf, errorsOf]
      rcases herror : event.error? with _ | error
      · rw [List.filterMap_cons_none herror]
        rcases hdiagnostic : event.diagnostic? with _ | diagnostic
        · rw [List.filterMap_cons_none hdiagnostic]
          exact ih
        · rw [List.filterMap_cons_some hdiagnostic,
            List.filter_cons_of_neg (by simp [Event.isError_of_diagnostic? herror hdiagnostic])]
          exact ih
      · rw [List.filterMap_cons_some herror, List.map_cons,
          List.filterMap_cons_some (Event.diagnostic?_of_error herror),
          List.filter_cons_of_pos error.toDiagnostic_isError]
        exact congrArg _ ih

theorem firstError?_eq_none_iff {log : List Event} :
    firstError? log = none ↔ errorsOf log = [] := by
  rw [firstError?, List.findSome?_eq_none_iff, errorsOf, List.filterMap_eq_nil_iff]

/-! ### Statements -/

namespace Parser

variable {limit fuel : Nat} {c d : Cursor} {arguments : Bool → Parser (List Argument)}
  {argumentsAt : Bool → Cursor → List Argument → Cursor → Prop}
  (htells : ∀ inMacro c, Tells limit c c (arguments inMacro) []
    (List.flatMap fun argument => placeholders argument.nodes))

include htells

theorem macroStatement_tells (hdollar : c.peek = some '$') :
    Tells limit c c (macroStatement (arguments true)) []
      fun statement => placeholders statement.nodes := by
  rw [macroStatement, tells_here_bind]
  refine (macroCommand_tells htells true hdollar).bind fun _ => ?_
  refine .still_bind (.slice _ _ _) fun chars => ?_
  split
  · exact .log_bind rfl (.pure rfl)
  · exact .pure rfl

theorem statement_tells (c : Cursor) :
    Tells limit c c (statement arguments) [] fun statement => placeholders statement.nodes := by
  rw [statement, tells_here_bind]
  split
  · exact (tells_bind_iff comment_run).mpr (.pure rfl)
  · rename_i hpeek
    exact macroStatement_tells htells hpeek
  · split
    · exact (command_tells htells false c).bind fun _ => .pure rfl
    · obtain ⟨d, hcd, hend⟩ := c.exists_charEnd
      exact .stops (.failAt (.refl c) hcd rfl hend)
  · exact .stops (.failAt (.refl c) le_rfl rfl rfl)

/-- A line that is no statement becomes a placeholder as a whole. -/
theorem anyStatement_tells (c : Cursor) :
    Tells limit c c (anyStatement arguments) [] fun statement => placeholders statement.nodes := by
  rw [anyStatement, tells_here_bind]
  refine Tells.bind (.orElse (fun error _ => ?_) (statement_tells htells c)) fun _ =>
    .log_bind rfl (.pure rfl)
  have hrun := recoverStatement_run (s := ⟨limit, .tolerant⟩) (c := c) error
  exact ⟨_, _, _, _, (bind_done settings_run).trans hrun, rfl, rfl, rfl, rfl⟩

/-- Statement by statement, the placeholders tell the errors. -/
theorem statements_told (hplaced : ∀ inMacro, ArgumentsPlaced (argumentsAt inMacro))
    (harguments : ∀ inMacro c, Reads limit c c (arguments inMacro) (argumentsAt inMacro c))
    {found : List Statement} {log : List Event}
    (hrun : statements arguments fuel ⟨limit, .tolerant⟩ c = .done found log d) :
    Told (c ≤ ·) (placeholders (found.flatMap Statement.nodes)) log := by
  induction fuel generalizing c found log with
  | zero => cases hrun
  | succ fuel ih =>
      have hstart := c.le_skipTrivia
      rcases hpeek : c.skipTrivia.peek with _ | x
      · rw [statements_run_nil hpeek] at hrun
        cases hrun
        exact .of_errorsOf_nil rfl
      · by_cases hx : x = '\n'
        · subst hx
          have hnext : c.skipTrivia ≤ c.skipTrivia.advance 1 :=
            Cursor.le_advance_of_peek hpeek
          rw [statements_run_newline hpeek] at hrun
          exact (ih hrun).mono fun _ => (hstart.trans hnext).trans
        · obtain ⟨first, earlier, e, others, later, hfirst, hothers, rfl, rfl⟩ :=
            statements_eq_done_cons hpeek hx hrun
          have hline := Cursor.atLineEnd_of_peek hpeek hx
          have hread := (anyStatement_reads hplaced harguments c.skipTrivia).returns hfirst
          have hle := hstart.trans (hread.forward hplaced hline).1.le
          have htold : Told (Within c.skipTrivia) (placeholders first.nodes) earlier := by
            have h := anyStatement_tells htells c.skipTrivia
            rw [Tells, hfirst] at h
            cases h with
            | done hparts htold =>
                rw [hparts]
                exact htold
          rw [List.flatMap_cons, placeholders_append]
          exact (htold.mono fun _ h => hstart.trans h.le).append
            ((ih hothers).mono fun _ => hle.trans)

end Parser

/-! ### Documents -/

/-- In the document of a tolerant parse, placeholders tell the errors of the log. -/
theorem Document.run_told {text : String} {options : ParseOptions} {document : Document}
    {log : List Event} {next : Cursor}
    (hrun : run .tolerant options text = .done document log next) :
    Told (Cursor.start text ≤ ·) (placeholders document.nodes) log := by
  rw [run, Parser.document_run, Parser.bind_run] at hrun
  obtain ⟨found, earlier, middle, later, hfound, hend, rfl⟩ := Outcome.andThen_eq_done hrun
  obtain ⟨rfl, rfl, rfl⟩ := Outcome.done.inj hend
  rw [List.append_nil]
  exact Parser.statements_told (Parser.arguments_tells options.maxDepth)
    (ArgumentsAt.argumentsPlaced options.maxDepth) (Parser.arguments_reads options.maxDepth) hfound

/-- Without errors there are no placeholders, and conversely. -/
theorem Told.eq_nil_iff {reach : Cursor → Prop} {nodes : List ErrorNode} {log : List Event}
    (h : Told reach nodes log) : nodes = [] ↔ errorsOf log = [] := by
  constructor
  · rintro rfl
    refine List.eq_nil_iff_forall_not_mem.mpr fun error herror => ?_
    obtain ⟨node, hnode, -⟩ := h.covered error herror
    cases hnode
  · intro hlog
    have hmessages := h.messages
    rw [hlog] at hmessages
    exact List.map_eq_nil_iff.mp (List.sublist_nil.mp hmessages)

/-- What starts in the statement at a place starts at the offset of the place or later, but not
after the end of the statement there. -/
theorem ParseError.StartsIn.bounds {text : String} {c : Cursor} {error : ParseError}
    (htext : Cursor.start text ≤ c) (h : error.StartsIn c) :
    c.offset ≤ error.span.start ∧
      error.span.start ≤ Lookup.skip Scan.statement text c.offset := by
  obtain ⟨a, b, ha, -, hspan⟩ := h
  rw [Lookup.skip, Cursor.atOffset_offset htext, hspan]
  exact ⟨Cursor.offset_le_of_le ha.le, Cursor.offset_le_of_le ha.le_end⟩

theorem ParseResult.tells_of_told {text : String} {document : Document} {log : List Event}
    {c d : Cursor} (htold : Told (Cursor.start text ≤ ·) (placeholders document.nodes) log)
    (hplaces : Outline.AllAt (document.statements.map Statement.outline) c d) :
    ParseResult.Tells text ⟨document, diagnosticsOf log⟩ := by
  have hmem : ∀ diagnostic, diagnostic ∈ diagnosticsOf log ∧ diagnostic.isError ↔
      ∃ error ∈ errorsOf log, error.toDiagnostic = diagnostic := by
    intro diagnostic
    rw [← List.mem_map, ← filter_diagnosticsOf, List.mem_filter]
  constructor
  · exact document.hasErrors_iff
  · rw [ne_eq, htold.eq_nil_iff]
    constructor
    · intro hne
      obtain ⟨error, herror⟩ := List.exists_mem_of_ne_nil _ hne
      exact ⟨_, (hmem _).mpr ⟨error, herror, rfl⟩⟩
    · rintro ⟨diagnostic, hdiagnostic⟩ hnil
      obtain ⟨error, herror, -⟩ := (hmem diagnostic).mp hdiagnostic
      rw [hnil] at herror
      cases herror
  · exact Document.placeholders_pairwise hplaces
  · rw [filter_diagnosticsOf, List.map_map]
    exact htold.messages
  · intro diagnostic hdiagnostic hisError
    obtain ⟨error, herror, rfl⟩ := (hmem diagnostic).mp ⟨hdiagnostic, hisError⟩
    obtain ⟨node, hnode, a, ha, hstart, hin⟩ := htold.covered error herror
    refine ⟨error.span, rfl, node, hnode, ?_⟩
    rw [hstart]
    exact hin.bounds ha

/-- The placeholders of every tolerant parse tell its errors, and the document of a strict parse
has none. -/
theorem parseTolerant_tells (text : String) (options : ParseOptions) :
    ∃ outcome result, Document.parse text options = .ok outcome ∧
      Document.parseTolerant text options = .ok result ∧ result.Tells text ∧
      ∀ document, outcome = .ok document → placeholders document.nodes = [] := by
  have hlockstep := Document.run_lockstep text options
  obtain ⟨document, log, next, htolerant, hstatements⟩ :=
    Document.exists_run_tolerant text options
  obtain ⟨last, -, hrow⟩ := hstatements.row (ArgumentsAt.argumentsPlaced options.maxDepth)
    (ArgumentsAt.outlined options.maxDepth)
  have htold := Document.run_told htolerant
  have htells := ParseResult.tells_of_told htold hrow.allAt
  rw [htolerant] at hlockstep
  rw [Document.parse, Document.parseTolerant, htolerant]
  generalize Document.run .strict options text = strict at hlockstep ⊢
  cases hlockstep with
  | done hlog _ =>
      refine ⟨.ok document, _, rfl, rfl, htells, ?_⟩
      rintro _ ⟨⟩
      exact htold.eq_nil_iff.mpr (firstError?_eq_none_iff.mp hlog)
  | recovered =>
      refine ⟨.error _, _, rfl, rfl, htells, ?_⟩
      rintro _ ⟨⟩

end Mcfunction
