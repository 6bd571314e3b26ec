import Mcfunction.Lookup
import Mcfunction.Proofs.Faithful

/-!
# Offsets and Places

Recognizers are asked at a place between two characters; a `Lookup` asks them at a byte offset.
Every boundary of a text is the offset of one of its places, and what is found there is what
stands at the place. At any other offset, past the end or inside a character, no text of the file
starts, and a lookup sees either nothing or a byte that belongs to no token.

## Main results

* `Lookup.place_or_blind`: an offset is that of a place, or nothing is recognized there.
* `Lookup.stands_iff`: the texts of a kind that stand at an offset are those in front of the
  place.
-/

namespace Mcfunction

variable {text : String} {c d : Cursor} {offset stop : Nat}

/-! ### Boundaries -/

/-- The boundaries of a text are the offsets of its places. -/
theorem Cursor.exists_of_pos? {pos : text.Pos} (h : text.pos? ⟨offset⟩ = some pos) :
    ∃ c, start text ≤ c ∧ c.offset = offset := by
  have hpos : pos.offset = ⟨offset⟩ := by
    obtain ⟨pos', hpos', rfl⟩ := Option.map_eq_some_iff.mp h
    rw [String.Slice.pos?] at hpos'
    split at hpos'
    · cases hpos'
      rfl
    · cases hpos'
  obtain ⟨before, after, htext, hbefore⟩ :=
    String.Pos.Raw.isValid_iff_exists_append.mp (hpos ▸ pos.isValid)
  have hoffset : before.utf8ByteSize = offset := congrArg String.Pos.Raw.byteIdx hbefore.symm
  refine ⟨⟨offset, after.toList⟩, ⟨before.toList, ?_, ?_⟩, rfl⟩
  · rw [start, htext, String.toList_append]
  · rw [start, byteWidth_eq_utf8ByteSize, hoffset, Nat.zero_add]

/-- The text of a span is what stands between two places. -/
theorem Span.Holds.exists_between {span : Span} {chars : List Char} (h : span.Holds text chars) :
    ∃ c d, Cursor.start text ≤ c ∧ c.Spells chars d ∧ span = c.spanTo d := by
  rw [Span.Holds, Span.slice?] at h
  split at h
  · rename_i hle
    split at h
    · rename_i first last hfirst hlast
      obtain ⟨c, hc, hstart⟩ := Cursor.exists_of_pos? hfirst
      obtain ⟨d, hd, hstop⟩ := Cursor.exists_of_pos? hlast
      have hcd : c ≤ d := Cursor.le_of_offset_le hc hd (by omega)
      obtain ⟨chars', hchars'⟩ := hcd
      have hspan : span = c.spanTo d := by rw [Cursor.spanTo, hstart, hstop]
      refine ⟨c, d, hc, ?_, hspan⟩
      have hslice := Cursor.slice?_spanTo hc hchars'.1 hchars'.2
      rw [← hspan, Span.slice?, if_pos hle, hfirst, hlast] at hslice
      dsimp only at hslice
      rw [h, Option.some.injEq] at hslice
      rw [String.ofList_injective hslice]
      exact hchars'
    · cases h
  · cases h

namespace Lookup

/-- The offset of a place in the text is a boundary. -/
theorem isBoundary_offset (hc : Cursor.start text ≤ c) : isBoundary text c.offset := by
  obtain ⟨before, htext, hbefore⟩ := Cursor.exists_before hc
  obtain ⟨pos, hpos, -⟩ := pos?_append before _ htext
  rw [isBoundary, ← hbefore, hpos]
  rfl

/-- The character at a place. -/
theorem char?_offset (hc : Cursor.start text ≤ c) : char? text c.offset = c.peek := by
  rw [char?, if_pos (isBoundary_offset hc), Cursor.atOffset_offset hc]

/-- What a lookup sees where no text of the file starts. -/
def Blind (chars : List Char) : Prop :=
  chars = [] ∨ ∃ tail, chars = Cursor.innerByte :: tail

/-- At an offset where no character starts, no text of the file is seen. -/
theorem blind_locate {target start : Nat} {rest : List Char} (hle : start ≤ target)
    (h : ∀ front tail, rest = front ++ tail → start + byteWidth front ≠ target) :
    Blind (Cursor.locate target start rest).rest := by
  induction rest generalizing start with
  | nil => exact .inl rfl
  | cons x rest ih =>
      rw [Cursor.locate]
      split_ifs with hfront hinside
      · exact absurd (Nat.le_antisymm hle hfront) (h [] _ rfl)
      · obtain ⟨k, hk⟩ := Nat.exists_eq_add_of_lt hinside
        refine .inr ⟨List.replicate k Cursor.innerByte ++ rest, ?_⟩
        rw [hk, Nat.add_assoc, Nat.add_sub_cancel_left, List.replicate_succ, List.cons_append]
      · refine ih (Nat.le_of_not_lt hinside) fun front tail hrest => ?_
        have hne := h (x :: front) tail (by rw [hrest, List.cons_append])
        rwa [byteWidth_cons, ← Nat.add_assoc] at hne

/-- An offset is that of a place, or no text of the file starts there. -/
theorem place_or_blind (text : String) (offset : Nat) :
    (∃ c, Cursor.start text ≤ c ∧ c.offset = offset) ∨
      Blind (Cursor.atOffset text offset).rest ∧ isBoundary text offset = false := by
  by_cases h : ∃ c, Cursor.start text ≤ c ∧ c.offset = offset
  · exact .inl h
  · refine .inr ⟨blind_locate (Nat.zero_le _) fun front tail htext hfront => h ?_, ?_⟩
    · exact ⟨⟨offset, tail⟩, ⟨front, htext, hfront.symm⟩, rfl⟩
    · rw [isBoundary, Option.isSome_eq_false_iff, Option.isNone_iff_eq_none]
      rcases hpos : text.pos? ⟨offset⟩ with _ | pos
      · rfl
      · exact absurd (Cursor.exists_of_pos? hpos) h

/-! ### Texts of a kind -/

/-- Between two offsets stands a text of a kind. -/
def Stands (Kind : List Char → Prop) (text : String) (start stop : Nat) : Prop :=
  ∃ chars, (Span.mk start stop).Holds text chars ∧ Kind chars

variable {Kind : List Char → Prop}

/-- The texts of a kind that stand at an offset are those in front of the place. -/
theorem stands_iff (hc : Cursor.start text ≤ c) :
    Stands Kind text c.offset stop ↔
      ∃ n ≤ c.rest.length, (c.advance n).offset = stop ∧ Kind (c.rest.take n) := by
  constructor
  · rintro ⟨chars, hholds, hkind⟩
    obtain ⟨c', d, hc', hspells, hspan⟩ := hholds.exists_between
    obtain ⟨hstart, hstop⟩ := Span.mk.inj hspan
    obtain rfl : c = c' := by
      rw [← Cursor.atOffset_offset hc, hstart, Cursor.atOffset_offset hc']
    obtain ⟨n, hn, rfl⟩ := Cursor.le_iff_exists_advance.mp ⟨chars, hspells⟩
    have htake : c.rest.take n = chars := by
      have hrest := hspells.1
      rw [Cursor.advance_rest] at hrest
      exact List.append_cancel_right ((List.take_append_drop n c.rest).trans hrest)
    exact ⟨n, hn, hstop.symm, htake ▸ hkind⟩
  · rintro ⟨n, hn, rfl, hkind⟩
    exact ⟨_, (Cursor.Spells.advance hn).holds hc, hkind⟩

/-- Where no text of the file starts, none of any kind stands. -/
theorem not_stands (h : isBoundary text offset = false) : ¬ Stands Kind text offset stop := by
  rintro ⟨chars, hholds, -⟩
  obtain ⟨c, d, hc, -, hspan⟩ := hholds.exists_between
  obtain ⟨rfl, -⟩ := Span.mk.inj hspan
  rw [isBoundary_offset hc] at h
  cases h

/-! ### Recognizers -/

section

variable {recognizer : List Char → Option Nat} {n : Nat}

/-- What is found at the offset of a place is what the recognizer finds there. -/
theorem find?_offset (hc : Cursor.start text ≤ c) :
    find? recognizer text c.offset = (recognizer c.rest).map c.offsetAfter := by
  rw [find?, Cursor.atOffset_offset hc]

/-- So it is some characters further on. -/
theorem find?_advance (hc : Cursor.start text ≤ c) (hn : n ≤ c.rest.length) :
    find? recognizer text (c.offsetAfter n) =
      (recognizer (c.rest.drop n)).map fun count => c.offsetAfter (n + count) := by
  rw [Cursor.offsetAfter, find?_offset (hc.trans (Cursor.le_advance hn)), Cursor.advance_rest]
  refine congrArg (Option.map · _) (funext fun count => ?_)
  rw [Cursor.offsetAfter, Cursor.offsetAfter, Cursor.advance_advance]

end

end Lookup

end Mcfunction
