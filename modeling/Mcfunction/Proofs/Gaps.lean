import Mcfunction.Proofs.Gaps.Document

/-!
# Replacing Gaps

How many blanks and line continuations stand between two tokens makes no difference. A valid text
stays valid if a gap between the name of a command and its first argument, between two arguments or
after a `run` is replaced by another one, and its document stays the same but for the places
behind the gap. Only whether there is a line continuation in the gap matters: between three numbers
it is what keeps them from being coordinates.

## Main results

* `parse_replace_gap`: the strict parse after a gap was replaced.
-/

namespace Mcfunction

variable {c : Cursor}

/-- Trivia that something on the same line follows make a gap. -/
theorem Cursor.separates {gap : List Char} (hne : gap ≠ [])
    (hrest : c.rest = gap ++ c.skipTrivia.rest)
    (hline : Scan.atLineEnd c.skipTrivia.rest = false) :
    Scan.Separates gap c.skipTrivia.rest where
  filler := by
    obtain ⟨chars, hfiller, hrest', -⟩ := Filled.skipTrivia c
    rw [hrest] at hrest'
    rwa [List.append_cancel_right hrest']
  ne_nil := hne
  stops := by
    rw [Cursor.skipTrivia, Cursor.advance_rest]
    exact Scan.step_drop_repeated Scan.triviaStep_le_length c.rest
  goesOn := hline

/-- A place between two parts of a text. -/
theorem Cursor.eq_of_offset_eq {before after : String}
    (hc : Cursor.start (before ++ after) ≤ c) (hoffset : c.offset = before.utf8ByteSize) :
    c = ⟨before.utf8ByteSize, after.toList⟩ := by
  have hplace : Cursor.start (before ++ after) ≤ ⟨before.utf8ByteSize, after.toList⟩ := by
    refine ⟨before.toList, by rw [Cursor.start, String.toList_append], ?_⟩
    rw [byteWidth_eq_utf8ByteSize]
    exact (Nat.zero_add _).symm
  exact le_antisymm (Cursor.le_of_offset_le hc hplace hoffset.le)
    (Cursor.le_of_offset_le hplace hc hoffset.ge)

/-- The seam at a gap of a text, for another gap. -/
theorem Span.Opens.exists_seam {before gap after other : String}
    (h : Span.Opens (.start (before ++ gap ++ after))
      ⟨before.utf8ByteSize, (before ++ gap).utf8ByteSize⟩)
    (hgap : gap ≠ "") (hother : other ≠ "") (hfiller : Filler false other.toList)
    (hcontinued : '\n' ∈ other.toList ↔ '\n' ∈ gap.toList) :
    ∃ seam : Seam, .start (before ++ gap ++ after) ≤ seam.cut ∧
      seam.gap = ⟨before.utf8ByteSize, (before ++ gap).utf8ByteSize⟩ ∧
      seam.place (.start (before ++ gap ++ after)) = .start (before ++ other ++ after) ∧
      seam.offset = fun n => if n < (before ++ gap).utf8ByteSize then n
        else n - gap.utf8ByteSize + other.utf8ByteSize := by
  obtain ⟨c, hc, hspan, hline⟩ := h
  have hright : c.skipTrivia = ⟨(before ++ gap).utf8ByteSize, after.toList⟩ :=
    Cursor.eq_of_offset_eq (hc.trans c.le_skipTrivia) (congrArg Span.stop hspan).symm
  obtain rfl : c = ⟨before.utf8ByteSize, (gap ++ after).toList⟩ := by
    rw [String.append_assoc] at hc
    exact Cursor.eq_of_offset_eq hc (congrArg Span.start hspan).symm
  have hne : gap.toList ≠ [] := fun h => hgap (String.toList_eq_nil_iff.mp h)
  have hne' : other.toList ≠ [] := fun h => hother (String.toList_eq_nil_iff.mp h)
  have hold : Scan.Separates gap.toList after.toList := by
    have hseparates := Cursor.separates hne (by rw [hright, String.toList_append]) hline
    rwa [hright] at hseparates
  let seam : Seam := ⟨⟨before.utf8ByteSize, (gap ++ after).toList⟩, gap.toList, other.toList,
    after.toList, String.toList_append,
    ⟨hold, ⟨hfiller, hne', hold.stops, hold.goesOn⟩, hcontinued.symm⟩⟩
  have hwidth : byteWidth gap.toList = gap.utf8ByteSize := byteWidth_eq_utf8ByteSize gap
  have hwidth' : byteWidth other.toList = other.utf8ByteSize := byteWidth_eq_utf8ByteSize other
  have hsize : (before ++ gap).utf8ByteSize = before.utf8ByteSize + gap.utf8ByteSize :=
    String.utf8ByteSize_append
  have hend : seam.right.offset = (before ++ gap).utf8ByteSize := by
    rw [hsize, ← hwidth]
    rfl
  refine ⟨seam, hc, ?_, ?_, ?_⟩
  · rw [Seam.gap, Cursor.spanTo, hend]
  · obtain ⟨chars, hrest, hplace⟩ := @Seam.exists_before seam _ hc
    have hchars : before.toList = chars := by
      refine (List.append_left_inj (gap.toList ++ after.toList)).mp ?_
      rw [← hrest]
      simp [Cursor.start]
    rw [hplace, ← hchars]
    simp [Cursor.start, seam]
  · have hnew : seam.cut.offset + byteWidth seam.new =
        before.utf8ByteSize + other.utf8ByteSize := congrArg (_ + ·) hwidth'
    funext n
    rw [Seam.offset, hend, hnew, hsize]
    split_ifs <;> omega

/-- A gap between two tokens of a valid text, replaced by any blanks and line continuations. If the
other gap holds a line continuation just when the first does, that is, a line break, then the text
is still valid, with the same document and all places from the end of the gap on moved. -/
theorem parse_replace_gap {before gap after other : String} {options : ParseOptions}
    {document : Document}
    (h : Document.parse (before ++ gap ++ after) options = .ok (.ok document))
    (hgap : ⟨before.utf8ByteSize, (before ++ gap).utf8ByteSize⟩ ∈ document.gaps)
    (hne : gap ≠ "") (hother : other ≠ "") (hfiller : Filler false other.toList)
    (hcontinued : '\n' ∈ other.toList ↔ '\n' ∈ gap.toList) :
    Document.parse (before ++ other ++ after) options =
      .ok (.ok (document.relocate fun n => if n < (before ++ gap).utf8ByteSize then n
        else n - gap.utf8ByteSize + other.utf8ByteSize)) := by
  obtain ⟨log, next, hrun⟩ := Document.parse_eq_ok_iff.mp h
  have hread := (Parser.document_reads (.start (before ++ gap ++ after))).post_of_run hrun
  obtain ⟨seam, hcut, hspan, hplace, hoffset⟩ :=
    (hread.gaps_open le_rfl _ hgap).exists_seam hne hother hfiller hcontinued
  rw [← hspan] at hgap
  rw [Document.run, Parser.document_run, Parser.bind_run] at hrun
  obtain ⟨found, _, _, _, hfound, hpure, -⟩ := Outcome.andThen_eq_done hrun
  cases hpure
  obtain ⟨-, -, log', hfound'⟩ := Parser.statements_crosses hcut le_rfl (Nat.lt_succ_self _)
    (fun _ => Nat.lt_succ_self _) _ _ _ hfound hgap
  refine Document.parse_eq_ok_iff.mpr ⟨log' ++ [], seam.moved next, ?_⟩
  rw [hplace] at hfound'
  rw [Document.run, Parser.document_run, Parser.bind_run, hfound', ← hoffset]
  rfl

/-- The numbers are no coordinates, as the second gap between them holds a line continuation. -/
theorem parse_replace_gap_continuation :
    ∃ document, Document.parse ("execute run tp 1 2" ++ " \\\n" ++ "3") {} = .ok (.ok document) ∧
      Document.parse ("execute run tp 1 2" ++ "\\\r\n\t " ++ "3") {} =
        .ok (.ok (document.relocate fun n => if n < 21 then n else n - 3 + 5)) := by
  have hgaps : (Document.parse ("execute run tp 1 2" ++ " \\\n" ++ "3") {}).map
      (·.map fun document => decide (⟨18, 21⟩ ∈ document.gaps)) = .ok (.ok true) := by
    decide +kernel
  have hfiller : Filler false "\\\r\n\t ".toList :=
    @Filler.continuation false [] ['\r', '\n'] _ (by simp) (.inr rfl)
      (.blank rfl (.blank rfl .nil))
  generalize hparse : Document.parse ("execute run tp 1 2" ++ " \\\n" ++ "3") {} = parsed at hgaps
  obtain fault | error | document := parsed
  · cases hgaps
  · cases hgaps
  · have hmem : ⟨18, 21⟩ ∈ document.gaps :=
      of_decide_eq_true (Except.ok.inj (Except.ok.inj hgaps))
    have hstart : "execute run tp 1 2".utf8ByteSize = 18 := rfl
    have hstop : ("execute run tp 1 2" ++ " \\\n").utf8ByteSize = 21 := rfl
    have h := @parse_replace_gap _ _ _ "\\\r\n\t " _ _ hparse (by rwa [hstart, hstop])
      (by simp) (by simp) hfiller (by simp)
    rw [hstop] at h
    exact ⟨document, rfl, h⟩

end Mcfunction
