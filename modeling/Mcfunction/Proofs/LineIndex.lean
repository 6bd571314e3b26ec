import Mathlib.Data.List.Sort
import Mathlib.Data.Prod.Lex
import Mcfunction.LineIndex
import Mcfunction.Proofs.Bytes

/-!
# Lines and Columns Count Line Feeds

A line index finds the line of an offset by binary search in the table of line starts. As the table
is ordered, the line found is the only one that starts at or before the offset while the next one
starts behind it. So the starts up to the line found are just those that are not behind the offset,
and in the table of a text there is one of them for each line feed before the offset, and the start
of the text.

## Main results

* `Search.ofTable_finds`: what the binary search in an ordered table answers.
* `LineIndex.exists_start`: the line found starts at or before the offset, and no line between.
* `LineIndex.lineColumn_lt`: later offsets have later lines and columns.
* `LineIndex.lineColumn_counts`: lines and columns told by the line feeds of the text.
-/

namespace Mcfunction

/-! ### Binary search -/

namespace Search

variable {table : Array Nat} {value low high : Nat}

/-- What a search in a table answers is right. -/
inductive Finds (table : Array Nat) (value : Nat) : Search → Prop
  /-- The value stands at the index. -/
  | found {index : Nat} : table[index]? = some value → Finds table value (.found index)
  /-- What stands before the index is smaller, and what stands from it on is larger. -/
  | missing {index : Nat} :
      (∀ i other, table[i]? = some other → i < index → other < value) →
      (∀ i other, table[i]? = some other → index ≤ i → value < other) →
      Finds table value (.missing index)

/-- In an ordered table what stands further on is larger. -/
theorem lt_of_lt (hordered : table.toList.Pairwise (· < ·)) {i j first second : Nat}
    (hi : table[i]? = some first) (hj : table[j]? = some second) (hij : i < j) :
    first < second := by
  obtain ⟨hilt, rfl⟩ := Array.getElem?_eq_some_iff.mp hi
  obtain ⟨hjlt, rfl⟩ := Array.getElem?_eq_some_iff.mp hj
  exact List.pairwise_iff_getElem.mp hordered i j hilt hjlt hij

/-- The invariant of the search: what stands before its range is smaller than the value, and what
stands behind it is larger. -/
theorem between_finds (hordered : table.toList.Pairwise (· < ·)) {hhigh : high ≤ table.size}
    (hbelow : ∀ i other, table[i]? = some other → i < low → other < value)
    (habove : ∀ i other, table[i]? = some other → high ≤ i → value < other) :
    Finds table value (between table value low high hhigh) := by
  fun_induction between table value low high hhigh with
  | case1 low high hhigh hlt middle hmiddle heq =>
      exact .found (Array.getElem?_eq_some_iff.mpr ⟨hmiddle, heq⟩)
  | case2 low high hhigh hlt middle hmiddle _ hless ih =>
      have hget : table[middle]? = some table[middle] := Array.getElem?_eq_getElem hmiddle
      refine ih (fun i other hother hi => ?_) habove
      rcases Nat.lt_succ_iff_lt_or_eq.mp hi with hi | rfl
      · exact (lt_of_lt hordered hother hget hi).trans hless
      · rw [hget] at hother
        exact Option.some.inj hother ▸ hless
  | case3 low high hhigh hlt middle hmiddle hne hless ih =>
      have hget : table[middle]? = some table[middle] := Array.getElem?_eq_getElem hmiddle
      have hgreater : value < table[middle] := by omega
      refine ih hbelow fun i other hother hi => ?_
      rcases hi.lt_or_eq with hi | rfl
      · exact hgreater.trans (lt_of_lt hordered hget hother hi)
      · rw [hget] at hother
        exact Option.some.inj hother ▸ hgreater
  | case4 low high hhigh hge =>
      exact .missing hbelow fun i other hother hi => habove i other hother (by omega)

/-- A search in a table that grows finds the value or the place where it belongs. -/
theorem ofTable_finds (hordered : table.toList.Pairwise (· < ·)) :
    Finds table value (ofTable table value) := by
  refine between_finds hordered (fun _ _ _ h => absurd h (Nat.not_lt_zero _)) ?_
  intro i other hother hi
  obtain ⟨hlt, -⟩ := Array.getElem?_eq_some_iff.mp hother
  omega

/-- The values that are not larger stand up to the last of them. -/
theorem Finds.le_iff {search : Search} (h : search.Finds table value)
    (hordered : table.toList.Pairwise (· < ·)) (hfirst : table[0]? = some low)
    (hle : low ≤ value) {i other : Nat} (hother : table[i]? = some other) :
    other ≤ value ↔ i ≤ search.last := by
  cases h with
  | @found index hindex =>
      change other ≤ value ↔ i ≤ index
      rcases lt_trichotomy i index with hi | rfl | hi
      · exact iff_of_true (lt_of_lt hordered hother hindex hi).le hi.le
      · rw [hindex] at hother
        exact iff_of_true (Option.some.inj hother).ge le_rfl
      · exact iff_of_false (lt_of_lt hordered hindex hother hi).not_ge hi.not_ge
  | @missing index hbelow habove =>
      change other ≤ value ↔ i ≤ index - 1
      have hpos : 0 < index := by
        by_contra hzero
        exact absurd (habove 0 low hfirst (by omega)) hle.not_gt
      rcases Nat.lt_or_ge i index with hi | hi
      · exact iff_of_true (hbelow i other hother hi).le (by omega)
      · exact iff_of_false (habove i other hother hi).not_ge (by omega)

end Search

namespace LineIndex

variable (index : LineIndex) {a b offset start : Nat}

/-! ### The line that is found -/

/-- The lines that start at or before an offset are those up to the line that is found. -/
theorem start_le_iff {i : Nat} (h : index.starts[i]? = some start) :
    start ≤ offset ↔ i ≤ index.line offset :=
  (Search.ofTable_finds index.ordered).le_iff index.ordered index.first (Nat.zero_le _) h

/-- The line of an offset starts at or before it, and the column is what lies between. -/
theorem exists_start (offset : Nat) : ∃ start, index.starts[index.line offset]? = some start ∧
    start ≤ offset ∧ index.lineColumn offset = (index.line offset, offset - start) := by
  have hget := Array.getElem?_eq_getElem (index.line_lt offset)
  exact ⟨_, hget, (index.start_le_iff hget).mpr le_rfl, rfl⟩

/-- Lines grow with offsets. -/
theorem line_mono (h : a ≤ b) : index.line a ≤ index.line b := by
  obtain ⟨start, hstart, hle, -⟩ := index.exists_start a
  exact (index.start_le_iff hstart).mp (hle.trans h)

/-- A later offset has a later line, or the same line and a later column. -/
theorem lineColumn_lt (h : a < b) : toLex (index.lineColumn a) < toLex (index.lineColumn b) := by
  obtain ⟨start, hstart, hle, heq⟩ := index.exists_start a
  obtain ⟨start', hstart', hle', heq'⟩ := index.exists_start b
  rw [heq, heq', Prod.Lex.toLex_lt_toLex]
  rcases (index.line_mono h.le).lt_or_eq with hlt | hline
  · exact .inl hlt
  · rw [hline, hstart', Option.some.injEq] at hstart
    exact .inr ⟨hline, by dsimp only; omega⟩

/-- So do lines and columns together. -/
theorem lineColumn_mono (h : a ≤ b) :
    toLex (index.lineColumn a) ≤ toLex (index.lineColumn b) := by
  rcases h.lt_or_eq with hlt | rfl
  · exact (index.lineColumn_lt hlt).le
  · exact le_rfl

/-- The starts up to the line that is found are those that are not behind the offset. -/
theorem filter_starts (offset : Nat) :
    index.starts.toList.filter (· ≤ offset) =
      index.starts.toList.take (index.line offset + 1) := by
  have hle : ∀ {i start}, index.starts.toList[i]? = some start →
      (start ≤ offset ↔ i ≤ index.line offset) := fun h =>
    index.start_le_iff (by rwa [← Array.getElem?_toList])
  have hfront : ∀ start ∈ index.starts.toList.take (index.line offset + 1), start ≤ offset := by
    intro start hmem
    obtain ⟨i, hi⟩ := List.mem_iff_getElem?.mp hmem
    rw [List.getElem?_take] at hi
    split at hi
    · exact (hle hi).mpr (by omega)
    · cases hi
  have hback : ∀ start ∈ index.starts.toList.drop (index.line offset + 1), ¬ start ≤ offset := by
    intro start hmem
    obtain ⟨i, hi⟩ := List.mem_iff_getElem?.mp hmem
    rw [List.getElem?_drop] at hi
    rw [hle hi]
    omega
  conv_lhs => rw [← List.take_append_drop (index.line offset + 1) index.starts.toList]
  rw [List.filter_append, List.filter_eq_self.mpr (by simpa using hfront),
    List.filter_eq_nil_iff.mpr (by simpa using hback), List.append_nil]

/-! ### Line feeds -/

variable {text : String} {chars : List Char}

/-- The offsets of the bytes before an offset that are line feeds, in order. -/
def feedsBefore (text : String) (offset : Nat) : List Nat :=
  (List.range offset).filter fun place => Lookup.byte? text place == some '\n'.toUInt8

/-- The line feeds before an offset are the places before it that hold one. -/
theorem mem_feedsBefore {place : Nat} :
    place ∈ feedsBefore text offset ↔
      place < offset ∧ Lookup.byte? text place = some '\n'.toUInt8 := by
  simp [feedsBefore]

/-- A line starts behind each line feed. -/
theorem mem_startsFrom {base : Nat} :
    start ∈ startsFrom base chars ↔ ∃ place,
      (chars.flatMap String.utf8EncodeChar)[place]? = some '\n'.toUInt8 ∧
        start = base + place + 1 := by
  induction chars generalizing base with
  | nil => simp [startsFrom]
  | cons x chars ih =>
      have hsize := String.length_utf8EncodeChar x
      -- a line feed is the character itself or a byte of the characters behind it
      have hsplit : (∃ place, ((x :: chars).flatMap String.utf8EncodeChar)[place]? =
            some '\n'.toUInt8 ∧ start = base + place + 1) ↔
          x = '\n' ∧ start = base + 1 ∨ start ∈ startsFrom (base + x.utf8Size) chars := by
        rw [ih, List.flatMap_cons]
        constructor
        · rintro ⟨place, hplace, rfl⟩
          rcases Nat.lt_or_ge place (String.utf8EncodeChar x).length with hlt | hge
          · rw [List.getElem?_append_left hlt, getElem?_utf8EncodeChar_iff rfl] at hplace
            exact .inl ⟨hplace.1, by omega⟩
          · rw [List.getElem?_append_right hge] at hplace
            exact .inr ⟨_, hplace, by omega⟩
        · rintro (⟨rfl, rfl⟩ | ⟨place, hplace, rfl⟩)
          · exact ⟨0, rfl, rfl⟩
          · refine ⟨x.utf8Size + place, ?_, by omega⟩
            rwa [List.getElem?_append_right (by omega), hsize, Nat.add_sub_cancel_left]
      rw [hsplit, startsFrom]
      split
      · rename_i hx
        subst hx
        simp [show '\n'.utf8Size = 1 from rfl]
      · simp [*]

/-- The lines behind the first start right behind the line feeds. -/
theorem map_feedsBefore (text : String) (offset : Nat) :
    (feedsBefore text offset).map (· + 1) =
      (startsFrom 0 text.toList).filter (· ≤ offset) := by
  have hfeeds : ((feedsBefore text offset).map (· + 1)).Pairwise (· < ·) :=
    (List.pairwise_lt_range.filter _).map _ fun _ _ => Nat.succ_lt_succ
  have hstarts := (startsFrom_ordered 0 text.toList).filter (· ≤ offset)
  refine hfeeds.eq_of_mem_iff hstarts fun start => ?_
  simp only [List.mem_map, mem_feedsBefore, List.mem_filter, mem_startsFrom, ← Lookup.byte?_eq,
    decide_eq_true_eq, Nat.zero_add]
  constructor
  · rintro ⟨place, ⟨hlt, hplace⟩, rfl⟩
    exact ⟨⟨place, hplace, rfl⟩, hlt⟩
  · rintro ⟨⟨place, hplace, rfl⟩, hle⟩
    exact ⟨place, ⟨hle, hplace⟩, rfl⟩

/-- The starts up to the line that is found are those of the first line and of the lines behind the
line feeds before the offset. -/
theorem take_starts_ofText (text : String) (offset : Nat) :
    (ofText text).starts.toList.take ((ofText text).line offset + 1) =
      0 :: (feedsBefore text offset).map (· + 1) := by
  rw [← filter_starts, map_feedsBefore]
  rfl

/-- The line of an offset is the number of line feeds before it. -/
theorem length_feedsBefore (text : String) (offset : Nat) :
    (feedsBefore text offset).length = (ofText text).line offset := by
  have hlength := congrArg List.length (take_starts_ofText text offset)
  have hline := (ofText text).line_lt offset
  rw [List.length_take, Array.length_toList, List.length_cons, List.length_map] at hlength
  omega

/-- The line of an offset starts behind the last line feed before it. -/
theorem start_eq_feedsBefore
    (h : (ofText text).starts[(ofText text).line offset]? = some start) :
    start = (feedsBefore text offset).getLast?.elim 0 (· + 1) := by
  have hlast := congrArg List.getLast? (take_starts_ofText text offset)
  rw [List.getLast?_take, if_neg (Nat.succ_ne_zero _), Nat.add_sub_cancel,
    Array.getElem?_toList, h, Option.some_or, List.getLast?_cons, List.getLast?_map,
    Option.some.injEq] at hlast
  rw [hlast]
  cases (feedsBefore text offset).getLast? <;> rfl

/-- The line of an offset is the number of line feeds before it, and its column is counted from
the last of them. Later offsets have later lines and columns, so each offset has a line and column
of its own; and the line is always in the table. -/
theorem lineColumn_counts (text : String) :
    (∀ offset, (ofText text).lineColumn offset =
      ((feedsBefore text offset).length,
        offset - (feedsBefore text offset).getLast?.elim 0 (· + 1))) ∧
    StrictMono (fun offset => toLex ((ofText text).lineColumn offset)) ∧
    Function.Injective (ofText text).lineColumn ∧
    ∀ offset, (ofText text).line offset < (ofText text).starts.size := by
  have hmono : StrictMono fun offset => toLex ((ofText text).lineColumn offset) :=
    fun _ _ h => (ofText text).lineColumn_lt h
  refine ⟨fun offset => ?_, hmono, fun a b h => hmono.injective (congrArg toLex h),
    (ofText text).line_lt⟩
  obtain ⟨start, hstart, -, heq⟩ := (ofText text).exists_start offset
  rw [heq, length_feedsBefore, start_eq_feedsBefore hstart]

/-- Behind a carriage return the column goes on; behind a line feed, the next line starts. -/
example : [2, 3, 9].map (ofText "é\r\nb").lineColumn = [(0, 2), (0, 3), (1, 5)] := by cbv

end LineIndex

end Mcfunction
