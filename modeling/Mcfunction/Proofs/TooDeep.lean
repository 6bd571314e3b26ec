import Mcfunction.Proofs.Depth
import Mcfunction.Proofs.TooDeep.Command

/-!
# Tolerant Parses with a Smaller Limit

A valid text that nests deeper than the limit is told about as such: the first error that the
tolerant parse reports is that something nests too deep. It need not be the last. What nests too
deep is skipped up to its closing bracket, and the rest of the argument is read on its own: of a
path the segments after that bracket are no argument.

It is the only kind of error if recovery skips whole all that nests too deep: values and arguments
without interpolated text that has brackets or quotes of its own, run clauses, and of the paths
those with containers on their last segment only.

## Main results

* `parseTolerant_of_valid`: the tolerant parse, with any limit, of a text that is valid with some
  limit.
-/

namespace Mcfunction

/-- A limit other than the one with which a text is valid: the strict parse with it gives the same
document, or the document nests deeper than it and the parse fails for that. -/
theorem Document.run_of_valid {text : String} {options : ParseOptions} {document : Document}
    (h : Document.parse text options = .ok (.ok document)) (limit : Nat) :
    (∃ log next, run .strict ⟨limit⟩ text = .done document log next ∧ document.nest ≤ limit) ∨
      ∃ error log, run .strict ⟨limit⟩ text = .failed error log ∧
        error.cause = .nestingTooDeep limit ∧ limit < document.nest := by
  obtain ⟨log, next, hrun⟩ := Document.parse_eq_ok_iff.mp h
  have hnest := Document.nest_le hrun
  rcases Nat.le_total limit options.maxDepth with hle | hle
  · have hlimited := @Document.run_limited text ⟨limit⟩ options hle
    rw [hrun] at hlimited
    generalize hlimit : run .strict ⟨limit⟩ text = narrow at hlimited
    cases hlimited with
    | same hgives => exact .inl ⟨log, next, rfl, Nat.not_lt.mp (hgives _ _ _ rfl)⟩
    | tooDeep _ hcause hgives => exact .inr ⟨_, _, rfl, hcause, hgives _ _ _ rfl⟩
  · have hlimited := @Document.run_limited text options ⟨limit⟩ hle
    rw [hrun] at hlimited
    generalize hlimit : run .strict ⟨limit⟩ text = wide at hlimited
    cases hlimited with
    | same hgives => exact .inl ⟨log, next, rfl, hnest.trans hle⟩

/-- The errors of a tolerant parse with a smaller limit. -/
theorem Document.onlyTooDeep_of_skippedWhole {text : String} {options : ParseOptions}
    {document tolerated : Document} {limit : Nat} {told : List Event} {stop : Cursor}
    (h : Document.parse text options = .ok (.ok document)) (hle : limit ≤ options.maxDepth)
    (hwhole : SkippedWhole (document.tooDeep limit))
    (hrun : run .tolerant ⟨limit⟩ text = .done tolerated told stop) : OnlyTooDeep limit told := by
  obtain ⟨log, next, hstrict⟩ := Document.parse_eq_ok_iff.mp h
  have hspared : (run .tolerant ⟨limit⟩ text).Spared limit .same next :=
    Parser.document_spares hle (.start text) _ _ _ hstrict hwhole
  rw [hrun] at hspared
  cases hspared with
  | done hlog _ => exact hlog

/-- A text that is valid with some limit, parsed tolerantly with any other. If the document nests no
deeper than that, it comes out as it is, without an error. If it nests deeper, the first error
reported is that something does; and if recovery skips whole what does, all of them are. -/
theorem parseTolerant_of_valid {text : String} {options : ParseOptions} {document : Document}
    (h : Document.parse text options = .ok (.ok document)) (limit : Nat) :
    ∃ result, Document.parseTolerant text ⟨limit⟩ = .ok result ∧
      (document.nest ≤ limit → result.document = document ∧ result.hasErrors = false) ∧
      (limit < document.nest → ∃ error : ParseError, error.cause = .nestingTooDeep limit ∧
        result.diagnostics.find? Diagnostic.isError = some error.toDiagnostic) ∧
      ((∀ node ∈ document.tooDeep limit, node.isSkippedWhole) →
        ∀ diagnostic ∈ result.diagnostics, diagnostic.isError →
          ∃ error : ParseError, error.cause = .nestingTooDeep limit ∧
            diagnostic = error.toDiagnostic) := by
  have hlockstep := Document.run_lockstep text ⟨limit⟩
  obtain ⟨tolerated, told, stop, htolerant, -⟩ := Document.exists_run_tolerant text ⟨limit⟩
  refine ⟨⟨tolerated, diagnosticsOf told⟩, by rw [Document.parseTolerant, htolerant], ?_⟩
  rw [htolerant] at hlockstep
  rcases Document.run_of_valid h limit with
    ⟨log, next, hrun, hnest⟩ | ⟨error, log, hrun, hcause, hnest⟩
  · rw [hrun] at hlockstep
    cases hlockstep with
    | done hlog _ =>
        have hnone : ParseResult.hasErrors ⟨document, diagnosticsOf told⟩ = false := by
          rw [hasErrors_eq, hlog]
          rfl
        refine ⟨fun _ => ⟨rfl, hnone⟩, fun hdeep => absurd hnest (Nat.not_le.mpr hdeep),
          fun _ diagnostic hmem herror => ?_⟩
        have hsome : ParseResult.hasErrors ⟨document, diagnosticsOf told⟩ = true :=
          List.any_eq_true.mpr ⟨diagnostic, hmem, herror⟩
        rw [hnone] at hsome
        cases hsome
  · rw [hrun] at hlockstep
    refine ⟨fun hle => absurd hnest (Nat.not_lt.mpr hle), fun _ => ⟨error, hcause, ?_⟩,
      fun hwhole diagnostic hmem herror => ?_⟩
    · cases hlockstep with
      | recovered _ hfirst _ =>
          rw [find?_diagnosticsOf, show firstError? told = some error from hfirst]
          rfl
    · obtain ⟨_, _, hstrict⟩ := Document.parse_eq_ok_iff.mp h
      have hle := (hnest.trans_le (Document.nest_le hstrict)).le
      have htold := Document.onlyTooDeep_of_skippedWhole h hle hwhole htolerant
      have hmem := List.mem_filter.mpr ⟨hmem, herror⟩
      rw [filter_diagnosticsOf] at hmem
      obtain ⟨error, hlogged, rfl⟩ := List.mem_map.mp hmem
      exact ⟨error, htold error hlogged, rfl⟩

/-- A path with an index at its end, where nothing may nest. -/
theorem parseTolerant_of_valid_path : ∃ document, ∃ result,
    Document.parse "x a.b[0]" ⟨1⟩ = .ok (.ok document) ∧
      Document.parseTolerant "x a.b[0]" ⟨0⟩ = .ok result ∧
      (∃ error : ParseError, error.cause = .nestingTooDeep 0 ∧
        result.diagnostics.find? Diagnostic.isError = some error.toDiagnostic) ∧
      ∀ diagnostic ∈ result.diagnostics, diagnostic.isError →
        ∃ error : ParseError, error.cause = .nestingTooDeep 0 ∧
          diagnostic = error.toDiagnostic := by
  have hvalid : (Document.parse "x a.b[0]" ⟨1⟩).map (·.map fun document =>
      (document.nest, (document.tooDeep 0).all Node.isSkippedWhole)) = .ok (.ok (1, true)) := by
    decide +kernel
  generalize hparse : Document.parse "x a.b[0]" ⟨1⟩ = parsed at hvalid
  obtain fault | error | document := parsed
  · cases hvalid
  · cases hvalid
  · obtain ⟨hnest, hwhole⟩ := Prod.mk.inj (Except.ok.inj (Except.ok.inj hvalid))
    obtain ⟨result, hresult, -, hdeep, honly⟩ := parseTolerant_of_valid hparse 0
    exact ⟨document, result, rfl, hresult, hdeep (by rw [hnest]; exact Nat.zero_lt_one),
      honly (List.all_eq_true.mp hwhole)⟩

/-- Behind a container on an earlier segment the rest of the path is told about too. -/
example : (Document.parseTolerant "x a[0].b" ⟨0⟩).map (·.diagnostics.map Diagnostic.id) =
    .ok ["MCF2013", "MCF2012"] := by
  decide +kernel

end Mcfunction
