import Mathlib.Order.Nat
import Mcfunction.Cursor

/-!
# The Order of Places

Places of one text are ordered: `c ≤ d` says that `d` is reached from `c` by moving over
characters. A place further on is always `c.advance n` for some `n`, and between places of one
text the order is that of their offsets.

## Main results

* `Cursor.le_iff_exists_advance`: the places from `c` on are the `c.advance n`.
* `Cursor.le_of_offset_le`: two places from `c` on are ordered as their offsets are.
* `Cursor.at?_offset`, `Cursor.slice?_offset`: what is asked for at the offsets of places from
  `c` on is always there.
-/

namespace Mcfunction

/-! ### Widths -/

@[simp] theorem byteWidth_nil : byteWidth [] = 0 := rfl

/-- A character adds its bytes to those of the others. -/
@[simp] theorem byteWidth_cons (c : Char) (chars : List Char) :
    byteWidth (c :: chars) = c.utf8Size + byteWidth chars := rfl

/-- Texts one after the other have the bytes of both. -/
@[simp] theorem byteWidth_append (chars chars' : List Char) :
    byteWidth (chars ++ chars') = byteWidth chars + byteWidth chars' := by
  induction chars with
  | nil => simp
  | cons c chars ih => simp [ih, Nat.add_assoc]

/-- Each character has at least one byte. -/
theorem length_le_byteWidth (chars : List Char) : chars.length ≤ byteWidth chars := by
  induction chars with
  | nil => simp
  | cons c chars ih =>
      have := c.utf8Size_pos
      simp only [List.length_cons, byteWidth_cons]
      omega

/-- Only the empty text has no bytes. -/
theorem byteWidth_eq_zero {chars : List Char} : byteWidth chars = 0 ↔ chars = [] := by
  constructor
  · intro h
    have := length_le_byteWidth chars
    exact List.eq_nil_of_length_eq_zero (by omega)
  · rintro rfl; rfl

/-- The bytes of the characters of a text are the bytes of the text. -/
theorem byteWidth_eq_utf8ByteSize (text : String) : byteWidth text.toList = text.utf8ByteSize := by
  suffices h : ∀ chars : List Char, byteWidth chars = (String.ofList chars).utf8ByteSize by
    rw [h, String.ofList_toList]
  intro chars
  induction chars with
  | nil => rfl
  | cons c chars ih =>
      rw [byteWidth_cons, ih, String.ofList_cons, String.utf8ByteSize_append,
        String.utf8ByteSize_singleton]

namespace Cursor

/-! ### Moving over characters -/

@[simp] theorem advance_zero (c : Cursor) : c.advance 0 = c := by
  simp only [advance]

/-- Going forward drops characters of what is left. -/
@[simp] theorem advance_rest (c : Cursor) (n : Nat) : (c.advance n).rest = c.rest.drop n := by
  fun_induction advance n c <;> simp_all

/-- Going forward twice is going forward by both numbers of characters. -/
theorem advance_advance (c : Cursor) (m n : Nat) :
    (c.advance m).advance n = c.advance (m + n) := by
  fun_induction advance m c with
  | case1 => simp
  | case2 m offset ih => rw [ih, Nat.add_right_comm m 1 n, advance]
  | case3 m offset c rest ih => rw [ih, Nat.add_right_comm m 1 n, advance]

/-- Going forward adds the bytes of what is passed to the offset. -/
theorem advance_offset {c : Cursor} {n : Nat} (h : n ≤ c.rest.length) :
    (c.advance n).offset = c.offset + byteWidth (c.rest.take n) := by
  fun_induction advance n c with
  | case1 => simp
  | case2 => simp at h
  | case3 n offset c rest ih =>
      rw [ih (by simpa using h)]
      simp [Nat.add_assoc]

/-- Going forward within the text succeeds. -/
theorem advance?_eq_some {c : Cursor} {n : Nat} (h : n ≤ c.rest.length) :
    c.advance? n = some (c.advance n) := by
  fun_induction advance? n c with
  | case1 => simp
  | case2 => simp at h
  | case3 n offset c rest ih =>
      rw [ih (by simpa using h), advance]

/-! ### The order -/

/-- `c ≤ d` if `d` is reached from `c` by moving over characters. -/
instance : PartialOrder Cursor where
  le c d := ∃ chars, c.rest = chars ++ d.rest ∧ d.offset = c.offset + byteWidth chars
  le_refl c := ⟨[], rfl, rfl⟩
  le_trans := by
    rintro a b c ⟨front, hab, hoff⟩ ⟨front', hbc, hoff'⟩
    exact ⟨front ++ front', by simp [hab, hbc], by simp [hoff, hoff', Nat.add_assoc]⟩
  le_antisymm := by
    rintro ⟨offset, rest⟩ ⟨offset', rest'⟩ ⟨front, hrest, hoff⟩ ⟨front', -, hoff'⟩
    simp only at hrest hoff hoff'
    obtain rfl : front = [] := byteWidth_eq_zero.mp (by omega)
    simp_all

/-- Going forward leads along the text. -/
theorem le_advance {c : Cursor} {n : Nat} (h : n ≤ c.rest.length) : c ≤ c.advance n :=
  ⟨c.rest.take n, by simp, advance_offset h⟩

/-- The places from `c` on are those that moving over characters reaches. -/
theorem le_iff_exists_advance {c d : Cursor} :
    c ≤ d ↔ ∃ n, n ≤ c.rest.length ∧ d = c.advance n := by
  constructor
  · rintro ⟨chars, hrest, hoff⟩
    have hlen : chars.length ≤ c.rest.length := by simp [hrest]
    refine ⟨chars.length, hlen, ?_⟩
    obtain ⟨offset, rest⟩ := d
    simp only at hrest hoff
    have hadv := advance_offset hlen
    cases hd : c.advance chars.length with
    | mk offset' rest' =>
        have hrest' := c.advance_rest chars.length
        simp_all
  · rintro ⟨n, hn, rfl⟩
    exact le_advance hn

/-- Along the text offsets grow. -/
theorem offset_le_of_le {c d : Cursor} (h : c ≤ d) : c.offset ≤ d.offset := by
  obtain ⟨chars, -, hoff⟩ := h
  omega

/-- No place of a text lies beyond its last byte. -/
theorem offset_le_utf8ByteSize {text : String} {c : Cursor} (h : start text ≤ c) :
    c.offset ≤ text.utf8ByteSize := by
  obtain ⟨chars, hrest, hoff⟩ := h
  have hwidth := byteWidth_eq_utf8ByteSize text
  rw [show text.toList = chars ++ c.rest from hrest, byteWidth_append] at hwidth
  have hstart : (start text).offset = 0 := rfl
  omega

/-- Along the text there are fewer and fewer characters left. -/
theorem length_le_of_le {c d : Cursor} (h : c ≤ d) : d.rest.length ≤ c.rest.length := by
  obtain ⟨chars, hrest, -⟩ := h
  simp [hrest]

/-- What is left further on is the end of what is left here. -/
theorem rest_suffix_of_le {c d : Cursor} (h : c ≤ d) : d.rest <:+ c.rest := by
  obtain ⟨chars, hrest, -⟩ := h
  exact ⟨chars, hrest.symm⟩

/-- Strictly further on is further on at a larger offset. -/
theorem lt_iff {c d : Cursor} : c < d ↔ c ≤ d ∧ c.offset < d.offset := by
  rw [lt_iff_le_and_ne]
  refine and_congr_right fun h => ?_
  constructor
  · intro hne
    obtain ⟨chars, hrest, hoff⟩ := h
    rcases chars with _ | ⟨x, chars⟩
    · obtain ⟨offset, rest⟩ := c
      obtain ⟨offset', rest'⟩ := d
      simp_all
    · have := x.utf8Size_pos
      simp only [byteWidth_cons] at hoff
      omega
  · rintro hlt rfl
    exact lt_irrefl _ hlt

/-- Strictly further on the offset is strictly larger. -/
theorem offset_lt_of_lt {c d : Cursor} (h : c < d) : c.offset < d.offset :=
  (lt_iff.mp h).2

/-- Strictly further on strictly fewer characters are left. -/
theorem length_lt_of_lt {c d : Cursor} (h : c < d) : d.rest.length < c.rest.length := by
  obtain ⟨⟨chars, hrest, hoff⟩, hlt⟩ := lt_iff.mp h
  rcases chars with _ | ⟨x, chars⟩
  · simp at hoff
    omega
  · simp only [hrest, List.length_append, List.length_cons]
    omega

/-- Going forward by at least one character leads strictly further on. -/
theorem lt_advance {c : Cursor} {n : Nat} (hpos : 0 < n) (h : n ≤ c.rest.length) :
    c < c.advance n := by
  refine lt_iff.mpr ⟨le_advance h, ?_⟩
  rw [advance_offset h]
  have := length_le_byteWidth (c.rest.take n)
  rw [List.length_take, Nat.min_eq_left h] at this
  omega

/-- The first character of what is left is the one that comes next. -/
theorem peek_of_cons {c : Cursor} {x : Char} {tail : List Char} (h : c.rest = x :: tail) :
    c.peek = some x := by
  rw [peek, h, List.head?_cons]

/-- One character further on what is left lacks its first character. -/
theorem advance_one_of_cons {c : Cursor} {x : Char} {tail : List Char} (h : c.rest = x :: tail) :
    (c.advance 1).rest = tail := by
  rw [advance_rest, h, List.drop_succ_cons, List.drop_zero]

/-- If a character comes next, some are left. -/
theorem length_pos_of_peek {c : Cursor} {x : Char} (h : c.peek = some x) : 0 < c.rest.length := by
  obtain ⟨tail, hrest⟩ := List.head?_eq_some_iff.mp h
  rw [hrest, List.length_cons]
  exact Nat.succ_pos _

/-- If a character comes next, what is left is not empty. -/
theorem ne_nil_of_peek {c : Cursor} {x : Char} (h : c.peek = some x) : c.rest ≠ [] :=
  List.ne_nil_of_length_pos (length_pos_of_peek h)

/-- If a character comes next, one can go forward by it. -/
theorem le_advance_of_peek {c : Cursor} {x : Char} (h : c.peek = some x) : c ≤ c.advance 1 :=
  le_advance (length_pos_of_peek h)

/-- Of two places ahead the one by more characters is further on. -/
theorem advance_le_advance {c : Cursor} {m n : Nat} (hmn : m ≤ n) (hn : n ≤ c.rest.length) :
    c.advance m ≤ c.advance n := by
  obtain ⟨k, rfl⟩ := Nat.exists_eq_add_of_le hmn
  rw [← advance_advance]
  exact le_advance (by simp; omega)

/-- It is strictly further on if it is by strictly more characters. -/
theorem advance_lt_advance {c : Cursor} {m n : Nat} (hmn : m < n) (hn : n ≤ c.rest.length) :
    c.advance m < c.advance n := by
  obtain ⟨k, rfl⟩ := Nat.exists_eq_add_of_lt hmn
  rw [Nat.add_assoc, ← advance_advance]
  refine lt_advance (Nat.succ_pos k) ?_
  rw [advance_rest, List.length_drop]
  omega

/-- Two places from `c` on are ordered as their offsets are. -/
theorem le_of_offset_le {c a b : Cursor} (ha : c ≤ a) (hb : c ≤ b)
    (h : a.offset ≤ b.offset) : a ≤ b := by
  obtain ⟨m, hm, rfl⟩ := le_iff_exists_advance.mp ha
  obtain ⟨n, hn, rfl⟩ := le_iff_exists_advance.mp hb
  rcases Nat.lt_or_ge n m with hlt | hge
  · have hle : c.advance n ≤ c.advance m := advance_le_advance hlt.le hm
    have heq : (c.advance n).offset = (c.advance m).offset :=
      le_antisymm (offset_le_of_le hle) h
    rcases hle.lt_or_eq with hlt' | heq'
    · exact absurd (offset_lt_of_lt hlt') (by omega)
    · exact heq'.ge
  · exact advance_le_advance hge hn

/-! ### What stands at the offsets of places -/

/-- Seeking the offset of a place finds the place. -/
theorem seek?_offset (chars : List Char) (d : Cursor) (offset : Nat)
    (hoff : d.offset = offset + byteWidth chars) :
    seek? d.offset offset (chars ++ d.rest) = some d := by
  induction chars generalizing offset with
  | nil =>
      obtain ⟨_, rest⟩ := d
      cases rest <;> simp_all [seek?]
  | cons x chars ih =>
      have := x.utf8Size_pos
      simp only [byteWidth_cons] at hoff
      rw [List.cons_append, seek?, if_neg (by omega), if_neg (by omega)]
      exact ih _ (by omega)

/-- Locating the offset of a place gives the place. -/
theorem locate_offset (chars : List Char) (d : Cursor) (offset : Nat)
    (hoff : d.offset = offset + byteWidth chars) :
    locate d.offset offset (chars ++ d.rest) = d := by
  induction chars generalizing offset with
  | nil =>
      obtain ⟨target, rest⟩ := d
      obtain rfl : target = offset := hoff
      cases rest with
      | nil => rfl
      | cons x rest => exact if_pos le_rfl
  | cons x chars ih =>
      have := x.utf8Size_pos
      simp only [byteWidth_cons] at hoff
      rw [List.cons_append, locate, if_neg (by omega), if_neg (by omega)]
      exact ih _ (by omega)

/-- The place at the offset of a place of the text. -/
theorem atOffset_offset {text : String} {d : Cursor} (h : start text ≤ d) :
    atOffset text d.offset = d := by
  obtain ⟨chars, hrest, hoff⟩ := h
  have htext : text.toList = chars ++ d.rest := hrest
  rw [atOffset, htext]
  exact locate_offset chars d 0 hoff

/-- The place at the offset of a place from `c` on. -/
theorem at?_offset {c d : Cursor} (h : c ≤ d) : c.at? d.offset = some d := by
  obtain ⟨chars, hrest, hoff⟩ := h
  rw [at?, hrest]
  exact seek?_offset chars d c.offset hoff

/-- What is found at an offset is a place with this offset. -/
theorem seek?_eq_some {target offset : Nat} {chars : List Char} {d : Cursor}
    (h : seek? target offset chars = some d) :
    ∃ front, chars = front ++ d.rest ∧ d.offset = offset + byteWidth front ∧
      d.offset = target := by
  induction chars generalizing offset with
  | nil =>
      rw [seek?] at h
      split at h
      · rename_i heq
        cases h
        exact ⟨[], rfl, rfl, heq.symm⟩
      · cases h
  | cons x chars ih =>
      rw [seek?] at h
      split at h
      · rename_i heq
        cases h
        exact ⟨[], rfl, rfl, heq.symm⟩
      · split at h
        · cases h
        · obtain ⟨front, hchars, hoff, htarget⟩ := ih h
          exact ⟨x :: front, by rw [hchars]; rfl, by rw [hoff, byteWidth_cons]; omega, htarget⟩

/-- What is found at an offset is further on, and at that offset. -/
theorem at?_eq_some {c d : Cursor} {target : Nat} (h : c.at? target = some d) :
    c ≤ d ∧ d.offset = target := by
  obtain ⟨front, hrest, hoff, htarget⟩ := seek?_eq_some h
  exact ⟨⟨front, hrest, hoff⟩, htarget⟩

/-- Cutting off the bytes of a front gives the front. -/
theorem cut?_append (chars tail : List Char) (offset : Nat) :
    cut? (offset + byteWidth chars) offset (chars ++ tail) = some chars := by
  induction chars generalizing offset with
  | nil => cases tail <;> simp [cut?]
  | cons x chars ih =>
      have := x.utf8Size_pos
      rw [List.cons_append, byteWidth_cons, cut?, if_neg (by omega), if_neg (by omega),
        ← Nat.add_assoc, ih]
      rfl

/-- What is cut off stands at the front and takes the bytes up to the end of the cut. -/
theorem cut?_eq_some {stop offset : Nat} {rest chars : List Char}
    (h : cut? stop offset rest = some chars) :
    stop = offset + byteWidth chars ∧ ∃ tail, rest = chars ++ tail := by
  induction rest generalizing offset chars with
  | nil =>
      rw [cut?] at h
      split at h
      · rename_i heq
        cases h
        exact ⟨heq, [], rfl⟩
      · cases h
  | cons x rest ih =>
      rw [cut?] at h
      split at h
      · rename_i heq
        cases h
        exact ⟨heq, x :: rest, rfl⟩
      · split at h
        · cases h
        · obtain ⟨chars, hcut, rfl⟩ := Option.map_eq_some_iff.mp h
          obtain ⟨hstop, tail, rfl⟩ := ih hcut
          exact ⟨by rw [hstop, byteWidth_cons]; omega, tail, rfl⟩

/-- The characters between the offsets of two places from `c` on. -/
theorem slice?_offset {c a b : Cursor} (hca : c ≤ a) (hab : a ≤ b) :
    c.slice? a.offset b.offset = some (a.rest.take (a.rest.length - b.rest.length)) := by
  obtain ⟨chars, hrest, hoff⟩ := hab
  rw [slice?, at?_offset hca, Option.bind_some, hoff, hrest, cut?_append]
  simp

/-- The text between two places ahead is the characters between them. -/
theorem slice?_advance {c : Cursor} {m n : Nat} (hmn : m ≤ n) (hn : n ≤ c.rest.length) :
    c.slice? (c.advance m).offset (c.advance n).offset =
      some ((c.rest.drop m).take (n - m)) := by
  rw [slice?_offset (le_advance (hmn.trans hn)) (advance_le_advance hmn hn)]
  simp only [advance_rest, List.length_drop, Option.some.injEq]
  congr 1
  omega

/-- The end of the next character is one character further on. -/
theorem charEnd_eq {c : Cursor} (h : c.rest ≠ []) : c.charEnd = (c.advance 1).offset := by
  obtain ⟨offset, rest⟩ := c
  rcases rest with _ | ⟨x, rest⟩
  · exact absurd rfl h
  · rfl

/-- The end of the character at a place is the offset of a place. -/
theorem exists_charEnd (c : Cursor) : ∃ d, c ≤ d ∧ c.charEnd = d.offset := by
  by_cases h : c.rest = []
  · exact ⟨c, le_rfl, by simp [charEnd, h]⟩
  · refine ⟨c.advance 1, le_advance ?_, charEnd_eq h⟩
    exact List.length_pos_iff.mpr h

end Cursor

end Mcfunction
