import Mcfunction.Proofs.Lines
import Mcfunction.Proofs.Placeholders
import Mcfunction.Proofs.Placeholders.Retold
import Mcfunction.Proofs.Returns.Document

/-!
# Texts with Carriage Returns

A tolerant parse of a text whose lines end in a carriage return and a line feed gives what the
parse of the text with line feeds alone gives, but for the places, the returns in the texts of
comments, and one message: where the name of a segment of a path is missing at the end of a line,
the return is found there instead of the end of the statement.

## Main results

* `Document.run_toUnix`: the run of a text whose returns belong to line endings.
* `parseTolerant_toDos`: the parses of a text with line endings of either kind.
-/

namespace Mcfunction

open Text (unix dos unix_cons Paired)

/-! ### Line endings of both kinds -/

namespace Text

variable {chars : List Char} {c : Char}

/-- A character that is no return keeps returns paired. -/
theorem Paired.cons (hc : c ≠ '\r') (h : Paired chars) : Paired (c :: chars) := by
  intro front tail hsplit
  rcases front with _ | ⟨x, front⟩
  · exact absurd (List.cons.inj hsplit).1 hc
  · exact h front tail (List.cons.inj hsplit).2

/-- A line ending in front keeps returns paired. -/
theorem Paired.ending (h : Paired chars) : Paired ('\r' :: '\n' :: chars) := by
  intro front tail hsplit
  rcases front with _ | ⟨x, front⟩
  · rw [← (List.cons.inj hsplit).2]
    rfl
  · exact h.cons (by decide) front tail (List.cons.inj hsplit).2

/-- What stands in front of a text of the other kind. -/
theorem dos_cons (c : Char) (chars : List Char) :
    dos (c :: chars) = if c = '\n' then '\r' :: '\n' :: dos chars else c :: dos chars := by
  rw [dos, List.flatMap_cons]
  by_cases hc : c = '\n' <;> simp [hc, dos]

/-- When every line feed gets a return, all returns are paired. -/
theorem paired_dos (h : '\r' ∉ chars) : Paired (dos chars) := by
  induction chars with
  | nil => exact .of_notMem h
  | cons c chars ih =>
      obtain ⟨hc, hrest⟩ := not_or.mp (mt List.mem_cons.mpr h)
      rw [dos_cons]
      split
      · exact (ih hrest).ending
      · exact (ih hrest).cons (Ne.symm hc)

/-- Leaving the returns out again gives the text. -/
theorem unix_dos (h : '\r' ∉ chars) : unix (dos chars) = chars := by
  induction chars with
  | nil => rfl
  | cons c chars ih =>
      obtain ⟨hc, hrest⟩ := not_or.mp (mt List.mem_cons.mpr h)
      rw [dos_cons]
      split
      · rename_i hnewline
        rw [unix_return, unix_newline, ih hrest, hnewline]
      · rw [unix_cons (Ne.symm hc), ih hrest]

/-- So it does for strings. -/
theorem toUnix_toDos {text : String} (h : '\r' ∉ text.toList) : toUnix (toDos text) = text := by
  rw [toUnix, toDos, String.toList_ofList, unix_dos h, String.ofList_toList]

end Text

/-! ### Both runs -/

/-- The text, its returns paired with line feeds. -/
def DosText.ofText (text : String) (h : Paired text.toList) : DosText :=
  ⟨text.toList, h⟩

/-- A run of the text without returns gives the same document and logs the same events, retold. -/
theorem Document.run_toUnix {text : String} {options : ParseOptions} {document document' : Document}
    {log log' : List Event} {next next' : Cursor} (h : Paired text.toList)
    (hrun : run .tolerant options text = .done document log next)
    (hrun' : run .tolerant options (Text.toUnix text) = .done document' log' next') :
    document' = retell (DosText.ofText text h).retelling document ∧
      log' = log.map (DosText.ofText text h).event := by
  obtain ⟨found⟩ := document
  obtain ⟨found'⟩ := document'
  have hmirrors : (Parser.statements (Parser.arguments options.maxDepth) (text.toList.length + 1)
      ⟨options.maxDepth, .tolerant⟩ (.start text)).Mirrors (DosText.ofText text h)
        (Parser.statements (Parser.arguments options.maxDepth)
          ((Text.toUnix text).toList.length + 1) ⟨options.maxDepth, .tolerant⟩
          ((DosText.ofText text h).back (.start text))) :=
    Parser.statements_mirrors (fun inMacro _ => Parser.arguments_mirrors options.maxDepth inMacro)
      (le_refl (DosText.ofText text h).start)
  have hstart : (DosText.ofText text h).back (.start text) = .start (Text.toUnix text) := by
    simp [DosText.back, DosText.place, Cursor.start, Text.toUnix]
  rw [run_eq_done_iff] at hrun hrun'
  rw [hrun, hstart, hrun'] at hmirrors
  cases hmirrors
  exact ⟨rfl, rfl⟩

/-! ### Both parses -/

instance : Retell ParseResult where
  retell r result := ⟨retell r result.document, retell r result.diagnostics⟩
  retell_retell _ _ _ := by simp

/-- Without places, without the returns in texts, and with new messages. -/
def Retelling.returnless (message : String → String) : Retelling :=
  ⟨fun _ => 0, Text.toUnix, message⟩

/-- The message about a return changes a parse exactly if a diagnostic has it: a placeholder has
it only then. -/
theorem ParseResult.retell_returnless_iff {result : ParseResult}
    (hmessages : ∀ node ∈ placeholders result.document.nodes,
      ∃ diagnostic ∈ result.diagnostics, diagnostic.message = node.message) :
    retell (.returnless id) result = retell (.returnless unixMessage) result ↔
      ∀ diagnostic ∈ result.diagnostics, diagnostic.message ≠ segmentAtReturn.message := by
  constructor
  · intro heq diagnostic hmem hmessage
    have hdiagnostics : result.diagnostics.map (retell (.returnless id)) =
        result.diagnostics.map (retell (.returnless unixMessage)) :=
      congrArg ParseResult.diagnostics heq
    have hsame : diagnostic.message = unixMessage diagnostic.message :=
      congrArg Diagnostic.message (List.map_inj_left.mp hdiagnostics diagnostic hmem)
    rw [hmessage, unixMessage, if_pos rfl] at hsame
    exact absurd hsame (by decide)
  · intro hnone
    have hsame : ∀ diagnostic ∈ result.diagnostics,
        id diagnostic.message = unixMessage diagnostic.message :=
      fun diagnostic hmem => (if_neg (hnone diagnostic hmem)).symm
    have hdocument : retell (.returnless id) result.document =
        retell (.returnless unixMessage) result.document := by
      refine result.document.retell_eq fun node hnode => ?_
      obtain ⟨diagnostic, hmem, hmessage⟩ := hmessages node hnode
      rw [← hmessage]
      exact hsame diagnostic hmem
    have hdiagnostics : retell (.returnless id) result.diagnostics =
        retell (.returnless unixMessage) result.diagnostics :=
      retell_list_eq fun diagnostic hmem =>
        congrArg (fun message => { retell (.returnless id) diagnostic with message := message })
          (hsame diagnostic hmem)
    have hparts : ∀ r : Retelling,
        retell r result = ⟨retell r result.document, retell r result.diagnostics⟩ := fun _ => rfl
    rw [hparts, hparts, hdocument, hdiagnostics]

/-- The message of a placeholder is the message of a diagnostic. -/
theorem Document.run_placeholder_message {text : String} {options : ParseOptions}
    {document : Document} {log : List Event} {next : Cursor}
    (hrun : run .tolerant options text = .done document log next) :
    ∀ node ∈ placeholders document.nodes,
      ∃ diagnostic ∈ diagnosticsOf log, diagnostic.message = node.message := by
  intro node hnode
  have hmem := (run_told hrun).messages.subset (List.mem_map_of_mem hnode)
  obtain ⟨error, herror, hmessage⟩ := List.mem_map.mp hmem
  have hfilter : error.toDiagnostic ∈ (diagnosticsOf log).filter Diagnostic.isError := by
    rw [filter_diagnosticsOf]
    exact List.mem_map_of_mem herror
  exact ⟨error.toDiagnostic, (List.mem_filter.mp hfilter).1, hmessage⟩

/-- The parses of a text with line feeds and of the same text with a return before each of them
tell the same, without their places and without the returns in texts, but for one message. They
tell the same altogether exactly if no diagnostic of the latter has that message: it finds a return
where the name of a segment of a path is missing at the end of a line. -/
theorem parseTolerant_toDos (text : String) (options : ParseOptions) (h : '\r' ∉ text.toList) :
    ∃ result result', Document.parseTolerant text options = .ok result ∧
      Document.parseTolerant (Text.toDos text) options = .ok result' ∧
      retell (.returnless unixMessage) result' = retell .placeless result ∧
      (retell (.returnless id) result' = retell .placeless result ↔
        ∀ diagnostic ∈ result'.diagnostics,
          diagnostic.message ≠ "expected path segment after '.', found '\\r'") := by
  obtain ⟨document, log, next, hrun, -⟩ := Document.exists_run_tolerant text options
  obtain ⟨document', log', next', hrun', -⟩ :=
    Document.exists_run_tolerant (Text.toDos text) options
  have hpaired : Paired (Text.toDos text).toList := by
    rw [Text.toDos, String.toList_ofList]
    exact Text.paired_dos h
  rw [← Text.toUnix_toDos h] at hrun
  obtain ⟨rfl, rfl⟩ := Document.run_toUnix hpaired hrun' hrun
  rw [Text.toUnix_toDos h] at hrun
  have hsame : retell (.returnless unixMessage) (⟨document', diagnosticsOf log'⟩ : ParseResult) =
      retell .placeless (⟨retell (DosText.ofText _ hpaired).retelling document',
        diagnosticsOf (log'.map (DosText.ofText _ hpaired).event)⟩ : ParseResult) := by
    rw [DosText.diagnosticsOf_event]
    exact (retell_retell .placeless (DosText.ofText _ hpaired).retelling
      (⟨document', diagnosticsOf log'⟩ : ParseResult)).symm
  refine ⟨_, ⟨document', diagnosticsOf log'⟩, ?_, ?_, hsame, ?_⟩
  · rw [Document.parseTolerant, hrun]
  · rw [Document.parseTolerant, hrun']
  · rw [← hsame]
    exact ParseResult.retell_returnless_iff (Document.run_placeholder_message hrun')

/-- A path that ends in a point at the end of a line is told of in two ways. -/
theorem parseTolerant_toDos_segment :
    ∃ result result', Document.parseTolerant "x a.\n" {} = .ok result ∧
      Document.parseTolerant (Text.toDos "x a.\n") {} = .ok result' ∧
      retell (.returnless unixMessage) result' = retell .placeless result ∧
      retell (.returnless id) result' ≠ retell .placeless result := by
  obtain ⟨result, result', hresult, hresult', hsame, hiff⟩ :=
    parseTolerant_toDos "x a.\n" {} (by decide)
  refine ⟨result, result', hresult, hresult', hsame, fun hequal => ?_⟩
  have hmessages : (Document.parseTolerant (Text.toDos "x a.\n") {}).map
      (·.diagnostics.map Diagnostic.message) =
        .ok ["expected path segment after '.', found '\\r'"] := by decide +kernel
  rw [hresult', Except.map, Except.ok.injEq] at hmessages
  obtain ⟨diagnostic, hmem, hmessage⟩ :=
    List.mem_map.mp (hmessages ▸ List.mem_singleton_self _)
  exact hiff.mp hequal diagnostic hmem hmessage

end Mcfunction
