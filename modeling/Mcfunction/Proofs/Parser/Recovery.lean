import Mcfunction.Proofs.Parser.Steady
import Mcfunction.Proofs.Reading.Placed

/-!
# How Recovery Goes On

A placeholder covers at least one character and stays in its statement, whatever the error
says; so a parser that catches errors with placeholders always moves forward.

## Main results

* `skipEnd_eq`: where a placeholder ends.
* `orPlaceholder_reads`: the rule for a parser whose errors become placeholders.
-/

namespace Mcfunction.Parser

variable {α : Type} {limit : Nat} {s : Settings} {c d origin : Cursor} {error : ParseError}
  {post : α → Cursor → Prop}

/-- Where the line does not end, something is left. -/
theorem ne_nil_of_not_atLineEnd {chars : List Char} (h : Scan.atLineEnd chars = false) :
    chars ≠ [] := by
  rintro rfl
  cases h

/-- The end of the skipped text is a place of the statement, and not where it starts. -/
theorem skipEnd_eq (herror : error.From c) (hline : Scan.atLineEnd c.rest = false) :
    ∃ d, c < d ∧ Within c d ∧ skipEnd c error = d.offset := by
  obtain ⟨a, b, hca, hab, hspan⟩ := herror
  -- the later of two places of the statement is a place of the statement
  have hmax : ∀ {a b : Cursor}, Within c a → Within c b →
      ∃ e, Within c e ∧ max a.offset b.offset = e.offset := by
    intro a b ha hb
    rcases le_total a.offset b.offset with h | h
    · exact ⟨b, hb, max_eq_right h⟩
    · exact ⟨a, ha, max_eq_left h⟩
  have hmin : ∃ e, Within c e ∧ min b.offset c.statementEnd.offset = e.offset := by
    rcases le_total b.offset c.statementEnd.offset with h | h
    · exact ⟨b, ⟨hca.trans hab, Cursor.le_of_offset_le (hca.trans hab) c.le_statementEnd h⟩,
        min_eq_left h⟩
    · exact ⟨c.statementEnd, ⟨c.le_statementEnd, le_rfl⟩, min_eq_right h⟩
  obtain ⟨e, he, hmin⟩ := hmin
  obtain ⟨stop, hstop, hmax⟩ := hmax (Within.advance (Scan.balancedChunk_le_statement c.rest)) he
  have heq : skipEnd c error =
      if stop.offset ≤ c.offset then c.charEnd else stop.offset := by
    rw [skipEnd, hspan, ← hmax, ← hmin]
    rfl
  rw [heq]
  split
  · have hne := ne_nil_of_not_atLineEnd hline
    exact ⟨c.advance 1, Cursor.lt_advance Nat.one_pos (List.length_pos_iff.mpr hne),
      .next hline, Cursor.charEnd_eq hne⟩
  · rename_i hlt
    exact ⟨stop, Cursor.lt_iff.mpr ⟨hstop.le, Nat.lt_of_not_le hlt⟩, hstop, rfl⟩

/-- What recovery does with an error. -/
theorem recover_run (hcd : c ≤ d) (hstop : skipEnd c error = d.offset) :
    recover error s c =
      .done ⟨error.message, c.spanTo d⟩ [.recovered error (c.spanTo d)] d := by
  rw [recover, bind_done here_run]
  simp only [hstop]
  rw [bind_done (span_run (Cursor.offset_le_of_le hcd)), bind_run]
  simp only [log, Outcome.andThen_done]
  rw [bind_done (goTo_run hcd)]
  rfl

/-- The rule for a parser that in tolerant mode goes on after an error. -/
theorem orElse_reads {p : Parser α} {handler : ParseError → Parser α}
    (hstrict : ∀ error, handler error ⟨limit, .strict⟩ c = .failed error [])
    (htolerant : ∀ error, error.From c → ∃ value log d,
      handler error ⟨limit, .tolerant⟩ c = .done value log d ∧ firstError? log = some error ∧
        post value d)
    (hp : Reads limit c c p post) : Reads limit c c (orElse p handler) post := by
  unfold Reads at hp ⊢
  unfold orElse
  generalize p ⟨limit, .strict⟩ c = strict at hp ⊢
  generalize p ⟨limit, .tolerant⟩ c = tolerant at hp ⊢
  cases hp with
  | done hlog hvalue => exact .done hlog hvalue
  | @failed error log hlog herror =>
      obtain ⟨value, log', d, hrun, herror', hvalue⟩ := htolerant error herror
      simp only [hstrict, hrun, Outcome.after_failed, Outcome.after_done, List.append_nil]
      refine .recovered herror ?_ (.done hvalue)
      rw [Outcome.log, firstError?_append_of_none hlog, herror']
  | @recovered error log _ herror hlog hsound =>
      simp only [hstrict, Outcome.after_failed, List.append_nil]
      cases hsound with
      | done hvalue => exact .recovered herror hlog (.done hvalue)
      | failed herror' =>
          obtain ⟨value, log', d, hrun, -, hvalue⟩ := htolerant _ herror'
          simp only [hrun, Outcome.after_done]
          exact .recovered herror (firstError?_append_of_some hlog _) (.done hvalue)

/-- The rule for a parser whose errors become placeholders. -/
theorem orPlaceholder_reads {p : Parser α} {placeholder : ErrorNode → α}
    (hline : Scan.atLineEnd c.rest = false) (hp : Reads limit c c p post)
    (hplaceholder : ∀ node d, PlaceholderAt c node d → post (placeholder node) d) :
    Reads limit c c (orPlaceholder p placeholder) post := by
  refine orElse_reads (fun error => rfl) (fun error herror => ?_) hp
  obtain ⟨d, hlt, hwithin, hstop⟩ := skipEnd_eq herror hline
  have hnode : PlaceholderAt c ⟨error.message, c.spanTo d⟩ d :=
    ⟨⟨hlt, hwithin, rfl⟩, error, herror, rfl, hstop.symm⟩
  refine ⟨placeholder ⟨error.message, c.spanTo d⟩, [.recovered error (c.spanTo d)], d, ?_, rfl,
    hplaceholder _ _ hnode⟩
  rw [bind_done settings_run]
  dsimp only
  rw [bind_run, recover_run hlt.le hstop]
  rfl

/-! ### Failing at a character -/

/-- The error about an unexpected character lies in the text. -/
theorem unexpected_steady {wanted : Wanted} (horigin : Within origin c) :
    Steady origin c (unexpected wanted) post := by
  obtain ⟨d, hcd, hend⟩ := c.exists_charEnd
  have hslice : ∃ chars, ∀ s, slice c c.offset c.charEnd s c = .done chars [] c := by
    refine ⟨c.rest.take (c.rest.length - d.rest.length), fun s => ?_⟩
    rw [slice, hend, Cursor.slice?_offset le_rfl hcd]
    rfl
  obtain ⟨chars, hslice⟩ := hslice
  rw [unexpected, steady_bind_iff fun _ => here_run, steady_bind_iff fun _ => hslice _]
  have hc := Cursor.offset_le_of_le hcd
  have hs := Cursor.offset_le_of_le c.le_statementEnd
  rcases le_total d.offset c.statementEnd.offset with h | h
  · refine .failAt horigin hcd rfl ?_
    rw [hend]
    change max (min d.offset c.statementEnd.offset) c.offset = _
    omega
  · refine .failAt horigin c.le_statementEnd rfl ?_
    rw [hend]
    change max (min d.offset c.statementEnd.offset) c.offset = _
    omega

/-- The error for what was not expected gives no value. -/
theorem unexpected_returns {wanted : Wanted} {property : α → Prop} :
    Returns (unexpected wanted) property :=
  .andThen fun _ => .andThen fun _ => .failAt

/-- The error about too deep nesting stands at the first character of what nests. -/
theorem tooDeep_run {mode : Mode} (start : Cursor) :
    (tooDeep start : Parser α) ⟨limit, mode⟩ c =
      .failed ⟨.nestingTooDeep limit, ⟨start.offset, start.charEnd⟩⟩ [] := by
  obtain ⟨d, hcd, hend⟩ := start.exists_charEnd
  rw [tooDeep, bind_run]
  simp only [settings, Outcome.andThen_done, Outcome.after_nil]
  exact failAt_run (hend ▸ Cursor.offset_le_of_le hcd)

/-- The error for what nests too deep is the same in both modes. -/
theorem tooDeep_reads {start : Cursor} (horigin : origin ≤ start) :
    Reads limit origin c (tooDeep start) post := by
  obtain ⟨d, hcd, hend⟩ := start.exists_charEnd
  exact .of_failed (fun _ => tooDeep_run start) ⟨start, d, horigin, hcd, by rw [hend]; rfl⟩

end Mcfunction.Parser
