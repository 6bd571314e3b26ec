import Mcfunction.Proofs.Lookup
import Mcfunction.Proofs.Numbers.Scan

/-!
# Numbers at Byte Offsets

What the numeric recognizers answer at an offset of a text, told by the texts that stand there. A
number ends where the longest numeral does; a type letter is added if it comes next; a coordinate
part is a mark with the longest offset after it, or such a number; and a coordinate triple is
three parts with blanks between them and no path character behind.

Offsets past the end and inside a character are no exceptions: nothing stands there, and nothing
is found.

## Main results

* `Lookup.numbersAt`: this holds at every offset of every text.
-/

namespace Mcfunction

namespace Lookup

/-- From the one offset to the other stands the longest text of a kind. -/
structure LongestAt (Kind : List Char → Prop) (text : String) (start stop : Nat) : Prop where
  /-- A text of the kind stands there. -/
  stands : Stands Kind text start stop
  /-- No longer text of the kind does. -/
  le_stop : ∀ {more}, Stands Kind text start more → more ≤ stop

/-- Between a number and the offset behind its type letter stands the letter, if one comes
next. -/
def LetterAt (text : String) (start : Nat) (suffix : Option Char) (stop : Nat) : Prop :=
  match suffix with
  | some letter => char? text start = some letter ∧ Scan.isSuffixLetter letter ∧ stop = start + 1
  | none => stop = start ∧ ∀ letter, char? text start = some letter →
      Scan.isSuffixLetter letter = false

/-- A coordinate part is found between the ends of the span. -/
def IsPart (text : String) (span : Span) : Prop :=
  find? Scan.coordinate text span.start = some span.stop

/-- What the numeric recognizers answer at an offset. -/
structure NumbersAt (text : String) (offset : Nat) : Prop where
  /-- A number is the longest numeral. -/
  number : ∀ stop, find? Scan.number text offset = some stop ↔
    LongestAt Numeral text offset stop
  /-- There is none only where no numeral stands. -/
  noNumber : find? Scan.number text offset = none ↔ ∀ stop, ¬ Stands Numeral text offset stop
  /-- A type letter is added if it comes next. -/
  suffixedNumber : ∀ stop suffix, suffixedNumber? text offset = some (stop, suffix) ↔
    ∃ digits, find? Scan.number text offset = some digits ∧ LetterAt text digits suffix stop
  /-- A relative or local part is its mark with the longest offset behind it, or alone. -/
  mark : char? text offset = some '~' ∨ char? text offset = some '^' →
    ∃ stop, find? Scan.coordinate text offset = some stop ∧
      (LongestAt SignedMantissa text (offset + 1) stop ∨
        stop = offset + 1 ∧ ∀ more, ¬ Stands SignedMantissa text (offset + 1) more)
  /-- Any other part is a number with its type letter. -/
  plain : ¬ (char? text offset = some '~' ∨ char? text offset = some '^') →
    find? Scan.coordinate text offset = (suffixedNumber? text offset).map Prod.fst
  /-- A triple is three parts with blanks between them and no path character behind. -/
  coordinates : ∀ parts, coordinates? text offset = some parts ↔
    parts.x.start = offset ∧ IsPart text parts.x ∧
      Stands (Row Scan.isBlank) text parts.x.stop parts.y.start ∧ IsPart text parts.y ∧
      Stands (Row Scan.isBlank) text parts.y.stop parts.z.start ∧ IsPart text parts.z ∧
      ∀ c, char? text parts.z.stop = some c → Scan.isPathChar c = false

variable {text : String} {c : Cursor} {offset stop : Nat} {Kind : List Char → Prop}
  {recognizer : List Char → Option Nat} {chars : List Char} {m n : Nat}

/-! ### The longest text -/

/-- The longest piece of a kind at an offset is the longest at the place. -/
theorem longestAt_iff (hc : Cursor.start text ≤ c) :
    LongestAt Kind text c.offset stop ↔
      ∃ n, Scan.Longest Kind c.rest n ∧ c.offsetAfter n = stop := by
  constructor
  · rintro ⟨hstands, hlongest⟩
    obtain ⟨n, hn, rfl, hkind⟩ := (stands_iff hc).mp hstands
    refine ⟨n, ⟨hn, hkind, fun {more} hmore hmoreKind => ?_⟩, rfl⟩
    have hle := hlongest ((stands_iff hc).mpr ⟨more, hmore, rfl, hmoreKind⟩)
    by_contra hlt
    exact absurd (Cursor.offset_lt_of_lt
      (Cursor.advance_lt_advance (Nat.lt_of_not_le hlt) hmore)) (Nat.not_lt_of_le hle)
  · rintro ⟨n, hlongest, rfl⟩
    refine ⟨(stands_iff hc).mpr ⟨n, hlongest.le_length, rfl, hlongest.kind⟩, fun h => ?_⟩
    obtain ⟨more, hmore, rfl, hkind⟩ := (stands_iff hc).mp h
    exact Cursor.offset_le_of_le
      (Cursor.advance_le_advance (hlongest.le_count hmore hkind) hlongest.le_length)

/-- A lookup finds the longest piece of its kind. -/
theorem find?_eq_some_iff (h : Scan.Recognizes recognizer Kind) (hc : Cursor.start text ≤ c) :
    find? recognizer text c.offset = some stop ↔ LongestAt Kind text c.offset stop := by
  rw [longestAt_iff hc, find?_offset hc, Option.map_eq_some_iff]
  simp only [h.eq_some_iff]

/-- A lookup finds nothing where no piece of its kind stands. -/
theorem find?_eq_none_iff (h : Scan.Recognizes recognizer Kind) (hc : Cursor.start text ≤ c) :
    find? recognizer text c.offset = none ↔ ∀ stop, ¬ Stands Kind text c.offset stop := by
  rw [find?_offset hc, Option.map_eq_none_iff, h.eq_none_iff]
  constructor
  · intro hnone stop hstands
    obtain ⟨n, hn, -, hkind⟩ := (stands_iff hc).mp hstands
    exact hnone n hn hkind
  · intro hnone n hn hkind
    exact hnone _ ((stands_iff hc).mpr ⟨n, hn, rfl, hkind⟩)

/-! ### Where nothing stands -/

/-- Where nothing can be seen of a number, there is none. -/
theorem Blind.number (h : Blind chars) : Scan.number chars = none := by
  obtain rfl | ⟨tail, rfl⟩ := h
  · rfl
  · simp [Scan.number, Scan.minus, Scan.decimal, Scan.run_cons, Cursor.innerByte]

theorem Blind.suffixedNumber (h : Blind chars) : Scan.suffixedNumber chars = none := by
  rw [Scan.suffixedNumber, h.number]

theorem Blind.coordinate (h : Blind chars) : Scan.coordinate chars = none := by
  obtain rfl | ⟨tail, rfl⟩ := h
  · rfl
  · have hblind : Blind (Cursor.innerByte :: tail) := .inr ⟨tail, rfl⟩
    rw [Scan.coordinate_plain (by decide), hblind.suffixedNumber]
    rfl

theorem Blind.coordinates (h : Blind chars) : Scan.coordinates chars = none := by
  rw [Scan.coordinates, h.coordinate]
  rfl

/-- At an offset where no text of the file starts, nothing is found. -/
theorem numbersAt_blind (hblind : Blind (Cursor.atOffset text offset).rest)
    (hoffset : isBoundary text offset = false) : NumbersAt text offset := by
  have hchar : char? text offset = none := by
    rw [char?, hoffset]
    rfl
  have hnumber : find? Scan.number text offset = none := by rw [find?, hblind.number]; rfl
  have hsuffixed : suffixedNumber? text offset = none := by
    rw [suffixedNumber?, hblind.suffixedNumber]
    rfl
  have hcoordinate : find? Scan.coordinate text offset = none := by
    rw [find?, hblind.coordinate]
    rfl
  constructor
  · intro stop
    rw [hnumber]
    exact ⟨fun h => (Option.some_ne_none _ h.symm).elim,
      fun h => (not_stands hoffset h.stands).elim⟩
  · rw [hnumber]
    exact ⟨fun _ _ => not_stands hoffset, fun _ => rfl⟩
  · intro stop suffix
    rw [hsuffixed, hnumber]
    constructor
    · intro h
      cases h
    · rintro ⟨digits, hdigits, -⟩
      cases hdigits
  · rw [hchar]
    rintro (h | h) <;> cases h
  · rw [hcoordinate, hsuffixed]
    exact fun _ => rfl
  · intro parts
    rw [coordinates?, hblind.coordinates]
    refine ⟨fun h => (Option.some_ne_none _ h.symm).elim, ?_⟩
    rintro ⟨rfl, hpart, -⟩
    rw [IsPart, hcoordinate] at hpart
    cases hpart

/-! ### Where a text stands -/

/-- A lookup of a number with its letter is one at the place. -/
theorem suffixedNumber?_offset (hc : Cursor.start text ≤ c) :
    suffixedNumber? text c.offset =
      (Scan.suffixedNumber c.rest).map fun (count, suffix) => (c.offsetAfter count, suffix) := by
  rw [suffixedNumber?, Cursor.atOffset_offset hc]

/-- The character at an offset is the one at the place. -/
theorem char?_offsetAfter (hc : Cursor.start text ≤ c) (hn : n ≤ c.rest.length) :
    char? text (c.offsetAfter n) = (c.rest.drop n).head? := by
  rw [Cursor.offsetAfter, char?_offset (hc.trans (Cursor.le_advance hn)), Cursor.peek,
    Cursor.advance_rest]

/-- A number with its letter is a number, with the letter behind it if there is one. -/
theorem suffixedNumber?_iff (hc : Cursor.start text ≤ c) (stop : Nat) (suffix : Option Char) :
    suffixedNumber? text c.offset = some (stop, suffix) ↔
      ∃ digits, find? Scan.number text c.offset = some digits ∧
        LetterAt text digits suffix stop := by
  -- the letter takes one byte
  have hletter : ∀ {n letter}, (c.rest.drop n).head? = some letter → Scan.isSuffixLetter letter →
      c.offsetAfter (n + 1) = c.offsetAfter n + 1 := by
    intro n letter hhead hsuffix
    obtain ⟨tail, htail⟩ := List.head?_eq_some_iff.mp hhead
    exact Cursor.advance_succ_offset htail (Scan.isSuffixLetter_size hsuffix).1
  rw [suffixedNumber?_offset hc, find?_offset hc, Option.map_eq_some_iff]
  constructor
  · rintro ⟨⟨m, suffix'⟩, h, heq⟩
    obtain ⟨rfl, rfl⟩ := Prod.mk.inj heq
    obtain ⟨n, hnumber, h⟩ := Scan.suffixedNumber_iff.mp h
    refine ⟨c.offsetAfter n, by rw [hnumber]; rfl, ?_⟩
    have hhead := char?_offsetAfter hc (Scan.inline_number hnumber).le_length
    cases suffix' with
    | none => exact ⟨congrArg _ h.1, by rw [hhead]; exact h.2⟩
    | some letter => exact ⟨by rw [hhead]; exact h.1, h.2.1, h.2.2 ▸ hletter h.1 h.2.1⟩
  · rintro ⟨digits, hdigits, h⟩
    obtain ⟨n, hnumber, rfl⟩ := Option.map_eq_some_iff.mp hdigits
    have hhead := char?_offsetAfter hc (Scan.inline_number hnumber).le_length
    cases suffix with
    | none =>
        obtain ⟨rfl, hnext⟩ := h
        rw [hhead] at hnext
        exact ⟨(n, none), Scan.suffixedNumber_iff.mpr ⟨n, hnumber, rfl, hnext⟩, rfl⟩
    | some letter =>
        obtain ⟨hnext, hsuffix, rfl⟩ := h
        rw [hhead] at hnext
        exact ⟨(n + 1, some letter),
          Scan.suffixedNumber_iff.mpr ⟨n, hnumber, hnext, hsuffix, rfl⟩,
          congrArg (Prod.mk · _) (hletter hnext hsuffix)⟩

/-- The mark of a relative or local part. -/
theorem find?_mark (hc : Cursor.start text ≤ c) {x : Char} (hx : x = '~' ∨ x = '^')
    (hpeek : c.peek = some x) :
    ∃ stop, find? Scan.coordinate text c.offset = some stop ∧
      (LongestAt SignedMantissa text (c.offset + 1) stop ∨
        stop = c.offset + 1 ∧ ∀ more, ¬ Stands SignedMantissa text (c.offset + 1) more) := by
  obtain ⟨tail, hrest⟩ := List.head?_eq_some_iff.mp hpeek
  have hnext := hc.trans (Cursor.le_advance_of_peek hpeek)
  have hone : (c.advance 1).offset = c.offset + 1 :=
    Cursor.advance_one_offset hrest (by rcases hx with rfl | rfl <;> rfl)
  have hoffset := Scan.coordinateOffset_recognizes
  rw [find?_offset hc, hrest, Scan.coordinate_mark hx, ← hone]
  refine ⟨_, rfl, ?_⟩
  rcases hsome : Scan.coordinateOffset tail with _ | n
  · exact .inr ⟨rfl, (find?_eq_none_iff hoffset hnext).mp (by
      rw [find?_offset hnext, Cursor.advance_one_of_cons hrest, hsome]
      rfl)⟩
  · refine .inl ((find?_eq_some_iff hoffset hnext).mp ?_)
    rw [find?_offset hnext, Cursor.advance_one_of_cons hrest, hsome, Option.map_some,
      Cursor.offsetAfter, Cursor.advance_advance]
    rfl

/-- A coordinate without a mark is a number with its letter. -/
theorem find?_plain (hc : Cursor.start text ≤ c)
    (h : ¬ (c.peek = some '~' ∨ c.peek = some '^')) :
    find? Scan.coordinate text c.offset = (suffixedNumber? text c.offset).map Prod.fst := by
  rw [find?_offset hc, suffixedNumber?_offset hc, Option.map_map]
  rcases hrest : c.rest with _ | ⟨x, tail⟩
  · rfl
  · rw [Cursor.peek_of_cons hrest, Option.some.injEq, Option.some.injEq] at h
    rw [Scan.coordinate_plain h, Option.map_map]
    rfl

/-! ### Triples -/

/-- A part of coordinates at an offset is one at the place. -/
theorem isPart_iff (hc : Cursor.start text ≤ c) (hn : n ≤ c.rest.length) :
    IsPart text ⟨c.offsetAfter n, stop⟩ ↔
      ∃ k, Scan.coordinate (c.rest.drop n) = some k ∧ c.offsetAfter (n + k) = stop := by
  rw [IsPart, find?_advance hc hn, Option.map_eq_some_iff]

/-- A piece of a kind at an offset is one at the place. -/
theorem stands_offsetAfter (hc : Cursor.start text ≤ c) (hn : n ≤ c.rest.length) :
    Stands Kind text (c.offsetAfter n) stop ↔
      ∃ k, n + k ≤ c.rest.length ∧ c.offsetAfter (n + k) = stop ∧
        Kind ((c.rest.drop n).take k) := by
  rw [Cursor.offsetAfter, stands_iff (hc.trans (Cursor.le_advance hn))]
  simp only [Cursor.advance_rest, List.length_drop, Cursor.advance_advance]
  refine exists_congr fun k => ?_
  rw [Nat.le_sub_iff_add_le' hn]
  rfl

/-- Coordinates are three parts with blanks between them. -/
theorem coordinates?_iff (hc : Cursor.start text ≤ c) (parts : Triple Span) :
    coordinates? text c.offset = some parts ↔
      parts.x.start = c.offset ∧ IsPart text parts.x ∧
        Stands (Row Scan.isBlank) text parts.x.stop parts.y.start ∧ IsPart text parts.y ∧
        Stands (Row Scan.isBlank) text parts.y.stop parts.z.start ∧ IsPart text parts.z ∧
        ∀ x, char? text parts.z.stop = some x → Scan.isPathChar x = false := by
  have hrow : ∀ {m k}, Scan.run? Scan.isBlank (c.rest.drop m) = some k →
      Row Scan.isBlank ((c.rest.drop m).take k) := by
    intro m k h
    obtain ⟨rfl, hpos⟩ := Scan.run?_eq_some.mp h
    exact Scan.row_take_run hpos
  rw [coordinates?, Cursor.atOffset_offset hc, Option.map_eq_some_iff]
  constructor
  · rintro ⟨counts, h, rfl⟩
    obtain ⟨x, gap, y, gap', z, hx, hgapX, hy, hgapY, hz, hpath, rfl⟩ :=
      Scan.coordinates_iff.mp h
    have hxLen := (Scan.inline_coordinate hx).le_length
    have hyStart := Scan.blanks_end_le hxLen hgapX
    have hyLen := Scan.coordinate_end_le hyStart hy
    have hzStart := Scan.blanks_end_le hyLen hgapY
    have hzLen := Scan.coordinate_end_le hzStart hz
    refine ⟨rfl, (isPart_iff hc (Nat.zero_le _)).mpr ⟨x, hx, congrArg _ (Nat.zero_add x)⟩,
      (stands_offsetAfter hc hxLen).mpr ⟨gap, hyStart, rfl, hrow hgapX⟩,
      (isPart_iff hc hyStart).mpr ⟨y, hy, rfl⟩,
      (stands_offsetAfter hc hyLen).mpr ⟨gap', hzStart, rfl, hrow hgapY⟩,
      (isPart_iff hc hzStart).mpr ⟨z, hz, rfl⟩, ?_⟩
    change ∀ x, char? text (c.offsetAfter _) = some x → _
    rwa [char?_offsetAfter hc hzLen]
  · obtain ⟨⟨xStart, xStop⟩, ⟨yStart, yStop⟩, ⟨zStart, zStop⟩⟩ := parts
    dsimp only
    rintro ⟨rfl, hx, hgapX, hy, hgapY, hz, hpath⟩
    obtain ⟨x, hxCount, rfl⟩ := (isPart_iff hc (Nat.zero_le _)).mp hx
    have hxLen := (Scan.inline_coordinate hxCount).le_length
    rw [Nat.zero_add] at hgapX ⊢
    obtain ⟨gap, hyStart, rfl, hblanks⟩ := (stands_offsetAfter hc hxLen).mp hgapX
    obtain ⟨y, hyCount, rfl⟩ := (isPart_iff hc hyStart).mp hy
    have hyLen := Scan.coordinate_end_le hyStart hyCount
    obtain ⟨gap', hzStart, rfl, hblanks'⟩ := (stands_offsetAfter hc hyLen).mp hgapY
    obtain ⟨z, hzCount, rfl⟩ := (isPart_iff hc hzStart).mp hz
    have hzLen := Scan.coordinate_end_le hzStart hzCount
    rw [char?_offsetAfter hc hzLen] at hpath
    refine ⟨_, Scan.coordinates_iff.mpr ⟨x, gap, y, gap', z, hxCount, ?_, hyCount, ?_,
      hzCount, hpath, rfl⟩, rfl⟩
    · exact Scan.run?_blanks hblanks (by rw [List.length_drop]; omega) (by rwa [List.drop_drop])
    · exact Scan.run?_blanks hblanks' (by rw [List.length_drop]; omega) (by rwa [List.drop_drop])

/-! ### All offsets -/

/-- At every offset of a text the numeric recognizers take as much as they can. -/
theorem numbersAt (text : String) (offset : Nat) : NumbersAt text offset := by
  rcases place_or_blind text offset with ⟨c, hc, rfl⟩ | ⟨hblind, hoffset⟩
  · refine ⟨fun stop => find?_eq_some_iff Scan.number_recognizes hc,
      find?_eq_none_iff Scan.number_recognizes hc, suffixedNumber?_iff hc, ?_, ?_,
      coordinates?_iff hc⟩
    · rw [char?_offset hc]
      rintro (hpeek | hpeek)
      · exact find?_mark hc (.inl rfl) hpeek
      · exact find?_mark hc (.inr rfl) hpeek
    · rw [char?_offset hc]
      exact find?_plain hc
  · exact numbersAt_blind hblind hoffset

end Lookup

end Mcfunction
