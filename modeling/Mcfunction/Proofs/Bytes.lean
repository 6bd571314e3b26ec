import Mcfunction.Lookup
import Mcfunction.Proofs.Cursor

/-!
# Characters and Their Bytes

A text is stored as the bytes of its characters in UTF-8. A character of one byte is encoded by
its own number, which is below 128, and every byte of a longer character is 128 or more. So a
byte below 128 never stands inside a character: where one is found, its character stands at a
place of the text.

## Main results

* `Lookup.byte?_eq`: the bytes of a text are those of its characters in order.
* `Lookup.drop_toUTF8`: the bytes from a place on are those of the characters that follow.
* `getElem?_utf8EncodeChar_iff`: a byte below 128 is all of its character.
* `Lookup.byte?_offset_iff`: which characters of one byte stand at a place.
-/

namespace Mcfunction

variable {text : String} {c : Cursor} {x y : Char} {i : Nat}

/-! ### The bytes of a character -/

/-- A character of one byte is encoded as this byte. -/
theorem utf8EncodeChar_of_short (hx : x.utf8Size = 1) :
    String.utf8EncodeChar x = [x.toUInt8] :=
  String.utf8EncodeChar_eq_singleton hx

/-- A character of one byte is below 128. -/
theorem toNat_lt_of_short (hx : x.utf8Size = 1) : x.toNat < 128 := by
  have hle : x.val ≤ 127 := Char.utf8Size_eq_one_iff.mp hx
  exact Nat.lt_succ_of_le (UInt32.le_iff_toNat_le.mp hle)

/-- The byte of a character of one byte has the number of the character. -/
theorem toNat_toUInt8_of_short (hx : x.utf8Size = 1) : x.toUInt8.toNat = x.toNat := by
  have hlt := toNat_lt_of_short hx
  have hmod : x.toUInt8.toNat = x.toNat % 2 ^ 8 := UInt32.toNat_toUInt8 x.val
  omega

/-- The bytes of a longer character cannot be taken for characters of one byte. -/
theorem le_of_mem_utf8EncodeChar {byte : UInt8} (hx : x.utf8Size ≠ 1)
    (hmem : byte ∈ String.utf8EncodeChar x) : 128 ≤ byte.toNat := by
  have hlt : ¬ x.val.toNat ≤ 127 := fun hle =>
    hx (Char.utf8Size_eq_one_iff.mpr (UInt32.le_iff_toNat_le.mpr hle))
  rw [String.utf8EncodeChar, if_neg hlt] at hmem
  split at hmem
  · simp only [List.mem_cons, List.not_mem_nil, or_false] at hmem
    rcases hmem with rfl | rfl <;> simp only [UInt8.toNat_ofNat'] <;> omega
  · split at hmem
    · simp only [List.mem_cons, List.not_mem_nil, or_false] at hmem
      rcases hmem with rfl | rfl | rfl <;> simp only [UInt8.toNat_ofNat'] <;> omega
    · simp only [List.mem_cons, List.not_mem_nil, or_false] at hmem
      rcases hmem with rfl | rfl | rfl | rfl <;> simp only [UInt8.toNat_ofNat'] <;> omega

/-- A byte below 128 is all of its character. -/
theorem getElem?_utf8EncodeChar_iff (hy : y.utf8Size = 1) :
    (String.utf8EncodeChar x)[i]? = some y.toUInt8 ↔ x = y ∧ i = 0 := by
  constructor
  · intro h
    by_cases hx : x.utf8Size = 1
    · rw [utf8EncodeChar_of_short hx, List.getElem?_singleton] at h
      split at h
      · have hbyte := congrArg UInt8.toNat (Option.some.inj h)
        rw [toNat_toUInt8_of_short hx, toNat_toUInt8_of_short hy] at hbyte
        exact ⟨Char.toNat_inj.mp hbyte, ‹_›⟩
      · cases h
    · have hle := le_of_mem_utf8EncodeChar hx (List.mem_of_getElem? h)
      rw [toNat_toUInt8_of_short hy] at hle
      exact absurd (toNat_lt_of_short hy) (Nat.not_lt_of_le hle)
  · rintro ⟨rfl, rfl⟩
    rw [utf8EncodeChar_of_short hy]
    rfl

/-! ### The bytes of a text -/

/-- The encoding of characters has as many bytes as they have together. -/
theorem length_flatMap_utf8EncodeChar (chars : List Char) :
    (chars.flatMap String.utf8EncodeChar).length = byteWidth chars := by
  induction chars with
  | nil => rfl
  | cons x chars ih =>
      rw [List.flatMap_cons, List.length_append, String.length_utf8EncodeChar, ih, byteWidth_cons]

namespace Lookup

/-- The bytes of a text are those of its characters in order. -/
theorem toList_toUTF8 (text : String) :
    text.toUTF8.data.toList = text.toList.flatMap String.utf8EncodeChar := by
  rw [String.toUTF8_eq_toByteArray]
  conv_lhs => rw [← String.ofList_toList (s := text)]
  rw [String.toByteArray_ofList, List.utf8Encode, List.toList_data_toByteArray]

/-- A byte of a text is one of the encoding of its characters. -/
theorem byte?_eq (text : String) (offset : Nat) :
    byte? text offset = (text.toList.flatMap String.utf8EncodeChar)[offset]? := by
  rw [byte?, ← toList_toUTF8, Array.getElem?_toList]
  rfl

/-- The bytes from a place on are those of the characters that follow. -/
theorem drop_toUTF8 (hc : Cursor.start text ≤ c) :
    text.toUTF8.data.toList.drop c.offset = c.rest.flatMap String.utf8EncodeChar := by
  obtain ⟨before, hrest, hoffset⟩ := hc
  have htext : text.toList = before ++ c.rest := hrest
  have hwidth : c.offset = (before.flatMap String.utf8EncodeChar).length := by
    rw [length_flatMap_utf8EncodeChar, hoffset, Cursor.start, Nat.zero_add]
  rw [toList_toUTF8, htext, List.flatMap_append, hwidth, List.drop_left]

/-- A character of one byte stands at a place just if its byte does. -/
theorem byte?_offset_iff (hc : Cursor.start text ≤ c) (hy : y.utf8Size = 1) :
    byte? text c.offset = some y.toUInt8 ↔ c.peek = some y := by
  have hbyte : byte? text c.offset = (c.rest.flatMap String.utf8EncodeChar)[0]? := by
    rw [← drop_toUTF8 hc, List.getElem?_drop, Nat.add_zero, toList_toUTF8, byte?_eq]
  rw [hbyte, Cursor.peek]
  rcases c.rest with _ | ⟨x, tail⟩
  · simp
  · have hpos : 0 < (String.utf8EncodeChar x).length := by
      rw [String.length_utf8EncodeChar]
      exact x.utf8Size_pos
    rw [List.flatMap_cons, List.getElem?_append_left hpos, getElem?_utf8EncodeChar_iff hy]
    simp

end Lookup

end Mcfunction
