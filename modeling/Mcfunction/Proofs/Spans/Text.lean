import Mathlib.Data.List.TakeWhile
import Mcfunction.Proofs.Parser.Logic

/-!
# The Text of Spans and Gaps

A span between two places of a text covers the characters between them. What stands between two
nodes of a tree is filler: blanks and line continuations inside a statement, and line breaks as
well between statements.

## Main results

* `Cursor.slice?_spanTo`: the text of the span between two places.
* `Cursor.filled_skipTrivia`: trivia are filler.
-/

namespace Mcfunction

/-! ### Slices -/

/-- The byte offset after a part of a text is one of its positions. -/
theorem pos?_append {text : String} (before after : String) (h : text = before ++ after) :
    ∃ pos, text.pos? ⟨before.utf8ByteSize⟩ = some pos ∧
      pos.offset.byteIdx = before.utf8ByteSize := by
  have hvalid : String.Pos.Raw.IsValid text ⟨before.utf8ByteSize⟩ :=
    String.Pos.Raw.isValid_iff_exists_append.mpr ⟨before, after, h, rfl⟩
  refine ⟨⟨⟨before.utf8ByteSize⟩, hvalid⟩, ?_, rfl⟩
  rw [String.pos?, String.Slice.pos?, dif_pos]
  · rfl
  · simpa using String.Pos.Raw.isValidForSlice_toSlice_iff.mpr hvalid

/-- A span covers what stands between the bytes before it and the bytes after it. -/
theorem Span.slice?_append (before piece after : String) :
    (Span.mk before.utf8ByteSize (before ++ piece).utf8ByteSize).slice?
      (before ++ piece ++ after) = some piece := by
  have hle : before.utf8ByteSize ≤ (before ++ piece).utf8ByteSize := by
    rw [String.utf8ByteSize_append]
    exact Nat.le_add_right _ _
  obtain ⟨first, hfirst, hfirstOffset⟩ :=
    pos?_append before (piece ++ after) String.append_assoc
  obtain ⟨last, hlast, hlastOffset⟩ := pos?_append (before ++ piece) after rfl
  rw [Span.slice?, if_pos hle]
  simp only [hfirst, hlast, Option.some.injEq]
  rw [← String.toByteArray_inj, String.toByteArray_extract, hfirstOffset, hlastOffset]
  rw [String.toByteArray_append, String.toByteArray_append, ByteArray.extract_append,
    ByteArray.extract_append_eq_right, ByteArray.extract_eq_empty_iff.mpr,
    ByteArray.append_empty]
  · rw [← String.toByteArray_append, String.size_toByteArray, Nat.sub_self]
    exact (Nat.min_le_left _ _).trans (Nat.zero_le _)
  · exact String.size_toByteArray.symm
  · rw [String.utf8ByteSize_append, String.size_toByteArray, String.size_toByteArray]

namespace Cursor

variable {text : String} {c d e : Cursor}

/-- The text before a place and the text from there on. -/
theorem exists_before (h : start text ≤ c) :
    ∃ before, text = before ++ String.ofList c.rest ∧ before.utf8ByteSize = c.offset := by
  obtain ⟨chars, hrest, hoff⟩ := h
  have hwidth := byteWidth_eq_utf8ByteSize (String.ofList chars)
  rw [String.toList_ofList] at hwidth
  refine ⟨String.ofList chars, ?_, ?_⟩
  · rw [← String.ofList_append, ← hrest]
    exact (String.ofList_toList).symm
  · rw [hoff, ← hwidth]
    exact (Nat.zero_add _).symm

/-- The last place of a text. -/
theorem offset_of_rest_nil (h : start text ≤ c) (hrest : c.rest = []) :
    c.offset = text.utf8ByteSize := by
  obtain ⟨before, htext, hbefore⟩ := exists_before h
  rw [htext, hrest, String.ofList_nil, String.append_empty, hbefore]

/-- The text of the span between two places. -/
theorem slice?_spanTo {chars : List Char} (h : start text ≤ c)
    (hrest : c.rest = chars ++ d.rest) (hoff : d.offset = c.offset + byteWidth chars) :
    (c.spanTo d).slice? text = some (String.ofList chars) := by
  obtain ⟨before, htext, hbefore⟩ := exists_before h
  have hwidth := byteWidth_eq_utf8ByteSize (String.ofList chars)
  rw [String.toList_ofList] at hwidth
  rw [hrest, String.ofList_append, ← String.append_assoc] at htext
  rw [htext, spanTo, hoff, ← hbefore, hwidth, ← String.utf8ByteSize_append]
  exact Span.slice?_append before (String.ofList chars) (String.ofList d.rest)

end Cursor

/-! ### Filler -/

/-- Text that belongs to no node: blanks and line continuations, and line breaks if `breaks`. -/
inductive Filler (breaks : Bool) : List Char → Prop
  /-- No text. -/
  | nil : Filler breaks []
  /-- A blank. -/
  | blank {x chars} : Scan.isBlank x → Filler breaks chars → Filler breaks (x :: chars)
  /-- A line break. -/
  | lineBreak {chars} : breaks → Filler breaks chars → Filler breaks ('\n' :: chars)
  /-- A backslash, spaces and tabs, and a line break, perhaps with a carriage return. -/
  | continuation {gap line chars} : (∀ x ∈ gap, x = ' ' ∨ x = '\t') →
      line = ['\n'] ∨ line = ['\r', '\n'] → Filler breaks chars →
      Filler breaks ('\\' :: gap ++ line ++ chars)

namespace Filler

variable {breaks : Bool} {chars chars' : List Char}

/-- Filler behind filler is filler. -/
theorem append (h : Filler breaks chars) (h' : Filler breaks chars') :
    Filler breaks (chars ++ chars') := by
  induction h with
  | nil => exact h'
  | blank hx _ ih => exact .blank hx ih
  | lineBreak hbreaks _ ih => exact .lineBreak hbreaks ih
  | continuation hgap hline _ ih =>
      rw [List.append_assoc]
      exact .continuation hgap hline ih

/-- Blanks are filler. -/
theorem of_blanks (h : ∀ x ∈ chars, Scan.isBlank x) : Filler breaks chars := by
  induction chars with
  | nil => exact .nil
  | cons x chars ih =>
      obtain ⟨hx, hchars⟩ := List.forall_mem_cons.mp h
      exact .blank hx (ih hchars)

/-- Filler inside a statement is filler between statements as well. -/
theorem of_false (h : Filler false chars) : Filler breaks chars := by
  induction h with
  | nil => exact .nil
  | blank hx _ ih => exact .blank hx ih
  | lineBreak hbreaks _ _ => cases hbreaks
  | continuation hgap hline _ ih => exact .continuation hgap hline ih

end Filler

namespace Scan

variable {chars : List Char} {n : Nat}

/-- The characters of a line continuation. -/
theorem take_continuation (h : continuation chars = some n) :
    ∃ gap line, chars.take n = '\\' :: gap ++ line ∧ (∀ x ∈ gap, x = ' ' ∨ x = '\t') ∧
      (line = ['\n'] ∨ line = ['\r', '\n']) := by
  unfold continuation at h
  split at h
  · rename_i chars
    have htake := take_run (fun c => c == ' ' || c == '\t') chars
    have hgap : ∀ x ∈ chars.takeWhile (fun c => c == ' ' || c == '\t'), x = ' ' ∨ x = '\t' := by
      intro x hx
      simpa using List.mem_takeWhile_imp hx
    generalize run (fun c => c == ' ' || c == '\t') chars = k at h htake
    simp only at h
    split at h
    · rename_i tail htail
      cases h
      refine ⟨_, _, ?_, hgap, .inl rfl⟩
      rw [List.take_succ_cons, List.take_add, htail, htake]
      rfl
    · rename_i tail htail
      cases h
      refine ⟨_, _, ?_, hgap, .inr rfl⟩
      rw [List.take_succ_cons, List.take_add, htail, htake]
      rfl
    · cases h
  · cases h

/-- One step through trivia is filler. -/
theorem filler_triviaStep (breaks : Bool) (h : 0 < triviaStep chars) :
    Filler breaks (chars.take (triviaStep chars)) := by
  rcases chars with _ | ⟨x, chars⟩
  · cases h
  · simp only [triviaStep] at h ⊢
    split at h
    · rename_i hblank
      rw [if_pos hblank]
      exact .blank hblank .nil
    · rename_i hblank
      rw [if_neg hblank]
      rcases hcont : continuation (x :: chars) with _ | k
      · simp [hcont] at h
      · obtain ⟨gap, line, htake, hgap, hline⟩ := take_continuation hcont
        have hfiller : Filler breaks ('\\' :: gap ++ line ++ []) := .continuation hgap hline .nil
        rwa [List.append_nil, ← htake] at hfiller

/-- Trivia are filler. -/
theorem filler_trivia (breaks : Bool) (chars : List Char) :
    Filler breaks (chars.take (trivia chars)) := by
  refine repeated_induction (motive := fun chars n => Filler breaks (chars.take n))
    triviaStep_le_length (fun chars _ => .nil) ?_ chars
  intro chars n hpos ih
  rw [List.take_add]
  exact (filler_triviaStep breaks hpos).append ih

end Scan

/-- Between two places stands filler only. -/
def Filled (breaks : Bool) (c d : Cursor) : Prop :=
  ∃ chars, Filler breaks chars ∧ c.rest = chars ++ d.rest ∧ d.offset = c.offset + byteWidth chars

namespace Filled

variable {text : String} {breaks : Bool} {c d e : Cursor}

theorem refl (c : Cursor) : Filled breaks c c :=
  ⟨[], .nil, rfl, rfl⟩

theorem le (h : Filled breaks c d) : c ≤ d := by
  obtain ⟨chars, -, hrest, hoff⟩ := h
  exact ⟨chars, hrest, hoff⟩

theorem trans (h : Filled breaks c d) (h' : Filled breaks d e) : Filled breaks c e := by
  obtain ⟨chars, hfiller, hrest, hoff⟩ := h
  obtain ⟨chars', hfiller', hrest', hoff'⟩ := h'
  refine ⟨chars ++ chars', hfiller.append hfiller', ?_, ?_⟩
  · rw [hrest, hrest', List.append_assoc]
  · rw [hoff', hoff, byteWidth_append, Nat.add_assoc]

theorem of_false (h : Filled false c d) : Filled breaks c d := by
  obtain ⟨chars, hfiller, hrest, hoff⟩ := h
  exact ⟨chars, hfiller.of_false, hrest, hoff⟩

theorem advance {n : Nat} (hn : n ≤ c.rest.length) (h : Filler breaks (c.rest.take n)) :
    Filled breaks c (c.advance n) := by
  refine ⟨c.rest.take n, h, ?_, Cursor.advance_offset hn⟩
  rw [Cursor.advance_rest, List.take_append_drop]

theorem skipTrivia (c : Cursor) : Filled breaks c c.skipTrivia :=
  .advance (Scan.trivia_le_length _) (Scan.filler_trivia breaks _)

/-- A line break is filler between statements. -/
theorem newline (h : c.peek = some '\n') : Filled true c (c.advance 1) := by
  obtain ⟨rest, hrest⟩ := List.head?_eq_some_iff.mp h
  refine .advance (by simp [hrest]) ?_
  rw [hrest]
  exact .lineBreak rfl .nil

/-- The text between the two places. -/
theorem exists_slice? (htext : Cursor.start text ≤ c) (h : Filled breaks c d) :
    ∃ piece, (c.spanTo d).slice? text = some piece ∧ Filler breaks piece.toList := by
  obtain ⟨chars, hfiller, hrest, hoff⟩ := h
  refine ⟨String.ofList chars, Cursor.slice?_spanTo htext hrest hoff, ?_⟩
  rwa [String.toList_ofList]

end Filled

end Mcfunction
