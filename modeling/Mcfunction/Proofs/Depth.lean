import Mcfunction.Proofs.Depth.Counted
import Mcfunction.Proofs.Modes

/-!
# The Limit on Nesting

The limit of a strict parse is exact: a text whose document nests no deeper than the limit is
parsed as with any larger limit, and a text whose document nests deeper is refused because
something nests too deep. A text that a larger limit refuses is refused by a smaller one as well.
A tolerant parse gives a document that respects the limit, and no parse goes more levels deep than
the limit says.

## Main results

* `parse_limit`: the parses of every text with two limits.
-/

namespace Mcfunction

/-- The parses of a text with two limits. The strict parse with the smaller limit gives the document
of the strict parse with the larger one, unless that document nests deeper than the smaller limit:
then it fails because something nests too deep. If the parse with the larger limit fails, the other
fails with the same error or because something nests too deep. The tolerant document nests no
deeper than the limit, and a stack with as many places as the limit has levels is enough for all
recursion. -/
theorem parse_limit (text : String) {few many : ParseOptions}
    (hle : few.maxDepth ≤ many.maxDepth) :
    ∃ outcome limited, Document.parse text many = .ok outcome ∧
      Document.parse text few = .ok limited ∧
      (∀ document, outcome = .ok document → document.nest ≤ few.maxDepth →
        limited = .ok document) ∧
      (∀ document, outcome = .ok document → few.maxDepth < document.nest →
        ∃ error, limited = .error error ∧ error.cause = .nestingTooDeep few.maxDepth) ∧
      (∀ error, outcome = .error error → limited = .error error ∨
        ∃ error', limited = .error error' ∧ error'.cause = .nestingTooDeep few.maxDepth) ∧
      (∃ result, Document.parseTolerant text few = .ok result ∧
        result.document.nest ≤ few.maxDepth) ∧
      ∀ mode stack, few.maxDepth ≤ stack →
        Parser.documentWithin stack ⟨few.maxDepth, mode⟩ (.start text) =
          Document.run mode few text := by
  have hlimited := Document.run_limited text hle
  have hsound := (Document.run_lockstep text many).sound_strict
  have htolerant : ∃ result, Document.parseTolerant text few = .ok result ∧
      result.document.nest ≤ few.maxDepth := by
    obtain ⟨document, log, next, hrun, -⟩ := Document.exists_run_tolerant text few
    rw [Document.parseTolerant, hrun]
    exact ⟨_, rfl, Document.nest_le hrun⟩
  have hwithin : ∀ mode stack, few.maxDepth ≤ stack →
      Parser.documentWithin stack ⟨few.maxDepth, mode⟩ (.start text) =
        Document.run mode few text := fun mode stack h => Parser.documentWithin_eq h _
  rw [Document.parse, Document.parse]
  generalize Document.run .strict many text = wide at hlimited hsound ⊢
  generalize Document.run .strict few text = narrow at hlimited ⊢
  cases hlimited with
  | same hgives =>
      cases hsound with
      | @done document log next =>
          have hnest := hgives _ _ _ rfl
          refine ⟨.ok document, _, rfl, rfl, ?_, ?_, ?_, htolerant, hwithin⟩
          · rintro _ ⟨⟩ _
            rfl
          · rintro _ ⟨⟩ hdeep
            exact absurd hdeep hnest
          · rintro _ ⟨⟩
      | @failed error =>
          refine ⟨.error error, _, rfl, rfl, ?_, ?_, ?_, htolerant, hwithin⟩
          · rintro _ ⟨⟩
          · rintro _ ⟨⟩
          · rintro _ ⟨⟩
            exact .inl rfl
  | @tooDeep tooDeep log _ hcause hgives =>
      cases hsound with
      | @done document log next =>
          have hnest : few.maxDepth < document.nest := hgives _ _ _ rfl
          refine ⟨.ok document, _, rfl, rfl, ?_, ?_, ?_, htolerant, hwithin⟩
          · rintro _ ⟨⟩ hle
            exact absurd hnest (Nat.not_lt.mpr hle)
          · rintro _ ⟨⟩ _
            exact ⟨tooDeep, rfl, hcause⟩
          · rintro _ ⟨⟩
      | @failed error =>
          refine ⟨.error error, _, rfl, rfl, ?_, ?_, ?_, htolerant, hwithin⟩
          · rintro _ ⟨⟩
          · rintro _ ⟨⟩
          · rintro _ ⟨⟩
            exact .inr ⟨tooDeep, rfl, hcause⟩

/-- A list in a list is one level too deep for the limit 1. -/
theorem parse_limit_list : (1 : Nat) ≤ 2 ∧ ∃ error,
    Document.parse "x [[1]]" ⟨1⟩ = .ok (.error error) ∧ error.cause = .nestingTooDeep 1 := by
  refine ⟨by decide, ?_⟩
  obtain ⟨outcome, limited, hmany, hfew, -, htooDeep, -⟩ :=
    @parse_limit "x [[1]]" ⟨1⟩ ⟨2⟩ (by decide)
  have hnest : (Document.parse "x [[1]]" ⟨2⟩).map (·.map Document.nest) = .ok (.ok 2) := by
    decide +kernel
  rw [hmany] at hnest
  cases outcome with
  | ok document =>
      have hnest : document.nest = 2 := Except.ok.inj (Except.ok.inj hnest)
      obtain ⟨error, rfl, hcause⟩ := htooDeep document rfl (by rw [hnest]; decide)
      exact ⟨error, hfew, hcause⟩
  | error error => cases hnest

end Mcfunction
