import Mcfunction.Proofs.Lines.Document
import Mcfunction.Proofs.Modes

/-!
# Line by Line

A tolerant parse reads lines one by one: two texts that are joined by a line break are read as
each of them alone, but for the places in the second one. So no error in a line, no bracket and
no quote that it leaves open changes how another line is read. The line break must end its line:
after a backslash and blanks it would join two lines instead.

## Main results

* `parseTolerant_append_line`: the parse of two texts with a line break between them.
-/

namespace Mcfunction

namespace Document

variable {text : String} {options : ParseOptions} {document : Document} {log : List Event}
  {next : Cursor}

/-- A tolerant parse is a run of the loop over statements. -/
theorem run_eq_done_iff : run .tolerant options text = .done document log next ↔
    Parser.statements (Parser.arguments options.maxDepth) (text.toList.length + 1)
      ⟨options.maxDepth, .tolerant⟩ (.start text) = .done document.statements log next := by
  have hrun : run .tolerant options text =
      (Parser.statements (Parser.arguments options.maxDepth) (text.toList.length + 1)
        ⟨options.maxDepth, .tolerant⟩ (.start text)).andThen fun statements next =>
          .done ⟨statements⟩ [] next := Parser.document_run
  obtain ⟨found⟩ := document
  rw [hrun]
  generalize Parser.statements (Parser.arguments options.maxDepth) _ _ _ = outcome
  cases outcome <;> simp [Outcome.andThen, Outcome.after]

end Document

/-! ### Two texts and a line break between them -/

/-- The joined text is the first, a line feed and the second. -/
theorem toList_append_line (first second : String) :
    (first ++ "\n" ++ second).toList = first.toList ++ '\n' :: second.toList := by
  simp

namespace Embedding

variable (first second : String)

/-- The first text stands at the start, and the line break ends its last line. -/
def upper (hclosed : Scan.endsOpen first.toList = false) : Embedding :=
  ⟨.start first, 0, '\n' :: second.toList, .newline hclosed⟩

/-- The second text stands behind the line break, and nothing follows it. -/
def lower : Embedding :=
  ⟨.start second, first.utf8ByteSize + 1, [], .nil⟩

variable {first} (hclosed : Scan.endsOpen first.toList = false)

/-- The first text starts where the joined text does. -/
theorem upper_place_start :
    (upper first second hclosed).place (.start first) = .start (first ++ "\n" ++ second) := by
  simp only [upper, place, Cursor.start, toList_append_line]

/-- Behind the first text come the line feed and the second. -/
theorem upper_place_finish : ((upper first second hclosed).place
    (upper first second hclosed).finish).rest = '\n' :: second.toList := by
  simp only [place, finish_rest]
  rfl

/-- Behind the line break after the first text the second one starts. -/
theorem upper_place_finish_advance :
    ((upper first second hclosed).place (upper first second hclosed).finish).advance 1 =
      (lower first second).place (.start second) := by
  have hoffset : (upper first second hclosed).finish.offset = first.utf8ByteSize := by
    rw [finish_offset, ← byteWidth_eq_utf8ByteSize]
    exact Nat.zero_add _
  have hplace : (upper first second hclosed).place (upper first second hclosed).finish =
      ⟨first.utf8ByteSize, '\n' :: second.toList⟩ := by
    simp only [place, finish_rest, hoffset]
    rfl
  have hlower : (lower first second).place (.start second) =
      ⟨first.utf8ByteSize + 1, second.toList⟩ := by
    simp [lower, place, Cursor.start, Nat.add_comm]
  rw [hplace, hlower]
  rfl

end Embedding

/-! ### The statements of the joined text -/

section

variable {first second : String} {limit : Nat} {found : List Statement} {log : List Event}
  {next : Cursor} {fuel : Nat}

/-- From the start of the second text on, its statements are read. -/
theorem statements_run_lower
    (hrun : Parser.statements (Parser.arguments limit) (second.toList.length + 1)
      ⟨limit, .tolerant⟩ (.start second) = .done found log next)
    (hfuel : second.toList.length + 1 ≤ fuel) :
    Parser.statements (Parser.arguments limit) fuel ⟨limit, .tolerant⟩
        ((Embedding.lower first second).place (.start second)) =
      .done (shift (first.utf8ByteSize + 1) found) (shift (first.utf8ByteSize + 1) log)
        ((Embedding.lower first second).place (Embedding.lower first second).finish) := by
  have hrest : ((Embedding.lower first second).place
      (Embedding.lower first second).finish).rest = [] := by
    simp [Embedding.lower, Embedding.place, Embedding.finish_rest]
  have h := Parser.statements_run_append (e := Embedding.lower first second)
    (fun inMacro _ => Parser.arguments_copies limit inMacro) Nat.one_pos
    (Parser.statements_run_end hrest) (le_refl _) hrun (Nat.succ_le_succ hfuel)
  simpa [Embedding.lower] using h

/-- From the end of the first text on, the line break is skipped and the second text is read. -/
theorem statements_run_upper_finish (hclosed : Scan.endsOpen first.toList = false)
    (hrun : Parser.statements (Parser.arguments limit) (second.toList.length + 1)
      ⟨limit, .tolerant⟩ (.start second) = .done found log next)
    (hfuel : second.toList.length + 2 ≤ fuel) :
    Parser.statements (Parser.arguments limit) fuel ⟨limit, .tolerant⟩
        ((Embedding.upper first second hclosed).place
          (Embedding.upper first second hclosed).finish) =
      .done (shift (first.utf8ByteSize + 1) found) (shift (first.utf8ByteSize + 1) log)
        ((Embedding.lower first second).place (Embedding.lower first second).finish) := by
  obtain ⟨fuel, rfl⟩ : ∃ k, fuel = k + 1 := ⟨fuel - 1, by omega⟩
  have hrest := Embedding.upper_place_finish second hclosed
  have hskip := Cursor.skipTrivia_of_atLineEnd (by rw [hrest]; rfl : Scan.atLineEnd
    ((Embedding.upper first second hclosed).place
      (Embedding.upper first second hclosed).finish).rest)
  have hpeek : ((Embedding.upper first second hclosed).place
      (Embedding.upper first second hclosed).finish).skipTrivia.peek = some '\n' := by
    rw [hskip, Cursor.peek, hrest]
    rfl
  rw [Parser.statements_run_newline hpeek, hskip,
    Embedding.upper_place_finish_advance second hclosed]
  exact statements_run_lower hrun (by omega)

/-- A run of the joined text is a run of the first text and then one of the second. -/
theorem Document.run_append_line {options : ParseOptions} {document document' : Document}
    {log' : List Event} {next' : Cursor} (hclosed : Scan.endsOpen first.toList = false)
    (hrun : Document.run .tolerant options first = .done document log next)
    (hrun' : Document.run .tolerant options second = .done document' log' next') :
    ∃ last, Document.run .tolerant options (first ++ "\n" ++ second) =
      .done ⟨document.statements ++ shift (first.utf8ByteSize + 1) document'.statements⟩
        (log ++ shift (first.utf8ByteSize + 1) log') last := by
  rw [run_eq_done_iff] at hrun hrun'
  have hlength : (first ++ "\n" ++ second).toList.length + 1 =
      first.toList.length + 1 + (second.toList.length + 1) := by
    rw [toList_append_line, List.length_append, List.length_cons]
    omega
  have h := Parser.statements_run_append (e := Embedding.upper first second hclosed)
    (fun inMacro _ => Parser.arguments_copies options.maxDepth inMacro) (Nat.succ_pos _)
    (statements_run_upper_finish hclosed hrun') (le_refl _) hrun (le_refl _)
  refine ⟨(Embedding.lower first second).place (Embedding.lower first second).finish, ?_⟩
  rw [run_eq_done_iff, hlength, ← Embedding.upper_place_start second hclosed]
  simpa [Embedding.upper] using h

end

/-- The tolerant parse of two texts with a line break between them gives the statements and the
diagnostics of the first text, then those of the second one, moved behind the line break. -/
theorem parseTolerant_append_line (first second : String) (options : ParseOptions)
    (hclosed : Scan.endsOpen first.toList = false) :
    ∃ before after, Document.parseTolerant first options = .ok before ∧
      Document.parseTolerant second options = .ok after ∧
      Document.parseTolerant (first ++ "\n" ++ second) options = .ok
        ⟨⟨before.document.statements ++
            shift (first.utf8ByteSize + 1) after.document.statements⟩,
          before.diagnostics ++ shift (first.utf8ByteSize + 1) after.diagnostics⟩ := by
  obtain ⟨document, log, next, hrun, -⟩ := Document.exists_run_tolerant first options
  obtain ⟨document', log', next', hrun', -⟩ := Document.exists_run_tolerant second options
  obtain ⟨last, hboth⟩ := Document.run_append_line hclosed hrun hrun'
  have hdiagnostics : diagnosticsOf (log ++ shift (first.utf8ByteSize + 1) log') =
      diagnosticsOf log ++ shift (first.utf8ByteSize + 1) (diagnosticsOf log') := by
    rw [← diagnosticsOf_shift, diagnosticsOf, List.filterMap_append]
    rfl
  refine ⟨⟨document, diagnosticsOf log⟩, ⟨document', diagnosticsOf log'⟩, ?_, ?_, ?_⟩
  · rw [Document.parseTolerant, hrun]
  · rw [Document.parseTolerant, hrun']
  · rw [Document.parseTolerant, hboth]
    dsimp only
    rw [hdiagnostics]

/-- A list that is not closed ends with its line. -/
theorem parseTolerant_append_unclosed :
    Scan.endsOpen "data [1, ".toList = false ∧
      ∃ before after, Document.parseTolerant "data [1, " {} = .ok before ∧
        Document.parseTolerant "say hi]" {} = .ok after ∧
        Document.parseTolerant ("data [1, " ++ "\n" ++ "say hi]") {} = .ok
          ⟨⟨before.document.statements ++ shift 10 after.document.statements⟩,
            before.diagnostics ++ shift 10 after.diagnostics⟩ :=
  ⟨by decide, parseTolerant_append_line "data [1, " "say hi]" {} (by decide)⟩

/-- After a backslash the line break joins two lines to one statement. -/
example : (Document.parseTolerant ("say \\" ++ "\n" ++ "hi") {}).map
    (·.document.statements.length) = .ok 1 := by decide +kernel

end Mcfunction
