/-!
# Lines and Columns

A `LineIndex` turns byte offsets of a text into lines and columns, both counted from zero;
columns count bytes. Only a line feed starts a new line, so a carriage return before it is the
last column of its line.

The index is an ordered table of the offsets at which lines start. The line of an offset is
looked up by binary search, which halves the range of the table that can hold it.
-/

namespace Mcfunction

/-- What comes of looking for a value in an ordered table. -/
inductive Search where
  /-- The value stands at this index. -/
  | found (index : Nat)
  /-- The value is not there; it belongs at this index. -/
  | missing (index : Nat)
deriving DecidableEq

namespace Search

/-- Looks for a value from the index `low` up to the index `high` of an ordered table. -/
def between (table : Array Nat) (value low high : Nat) (hhigh : high ≤ table.size) : Search :=
  if h : low < high then
    let middle := low + (high - low) / 2
    have hmiddle : middle < table.size := by omega
    if table[middle] = value then .found middle
    else if table[middle] < value then between table value (middle + 1) high hhigh
    else between table value low middle (by omega)
  else .missing low
termination_by high - low

/-- Looks for a value in an ordered table. -/
def ofTable (table : Array Nat) (value : Nat) : Search :=
  between table value 0 table.size (Nat.le_refl _)

/-- The index of the value, or else of the last value before it. A value before all others has
the first index. -/
def last : Search → Nat
  | .found index => index
  | .missing index => index - 1

/-- What a search between two bounds ends with is an index of the table. -/
theorem last_between_lt {table : Array Nat} {value low high : Nat} {hhigh : high ≤ table.size}
    (hpos : 0 < table.size) (hle : low ≤ high) :
    (between table value low high hhigh).last < table.size := by
  fun_induction between table value low high hhigh with
  | case1 low high hhigh hlt middle hmiddle => exact hmiddle
  | case2 low high hhigh hlt middle hmiddle _ _ ih => exact ih (by omega)
  | case3 low high hhigh hlt middle hmiddle _ _ ih => exact ih (by omega)
  | case4 low high hhigh =>
      rw [last]
      omega

/-- What a search of the whole table ends with is an index of the table. -/
theorem last_ofTable_lt {table : Array Nat} {value : Nat} (hpos : 0 < table.size) :
    (ofTable table value).last < table.size :=
  last_between_lt hpos (Nat.zero_le _)

end Search

/-- The offsets at which the lines of a text start. -/
structure LineIndex where
  /-- The offset of each line. -/
  starts : Array Nat
  /-- The first line starts with the text. -/
  first : starts[0]? = some 0
  /-- Each line starts behind the one before it. -/
  ordered : starts.toList.Pairwise (· < ·)

namespace LineIndex

/-- Offsets just past the line feeds of a text that starts at `offset`. -/
def startsFrom (offset : Nat) : List Char → List Nat
  | [] => []
  | c :: chars =>
    let next := offset + c.utf8Size
    if c = '\n' then next :: startsFrom next chars else startsFrom next chars

/-- The lines of a text start behind its first offset. -/
theorem lt_of_mem_startsFrom {offset start : Nat} {chars : List Char}
    (h : start ∈ startsFrom offset chars) : offset < start := by
  induction chars generalizing offset with
  | nil => cases h
  | cons c chars ih =>
      have hsize := c.utf8Size_pos
      rw [startsFrom] at h
      split at h
      · rcases List.mem_cons.mp h with rfl | h
        · omega
        · have := ih h
          omega
      · have := ih h
        omega

/-- The starts of lines grow. -/
theorem startsFrom_ordered (offset : Nat) (chars : List Char) :
    (startsFrom offset chars).Pairwise (· < ·) := by
  induction chars generalizing offset with
  | nil => exact .nil
  | cons c chars ih =>
      rw [startsFrom]
      split
      · exact .cons (fun _ => lt_of_mem_startsFrom) (ih _)
      · exact ih _

/-- The index of a text. -/
def ofText (text : String) : LineIndex where
  starts := (0 :: startsFrom 0 text.toList).toArray
  first := rfl
  ordered := .cons (fun _ => lt_of_mem_startsFrom) (startsFrom_ordered _ _)

/-- The line that holds an offset. An offset past the end lies on the last line. -/
def line (index : LineIndex) (offset : Nat) : Nat :=
  (Search.ofTable index.starts offset).last

/-- The line of an offset is in the table. -/
theorem line_lt (index : LineIndex) (offset : Nat) : index.line offset < index.starts.size := by
  obtain ⟨hpos, -⟩ := Array.getElem?_eq_some_iff.mp index.first
  exact Search.last_ofTable_lt hpos

/-- The line and column of an offset. -/
def lineColumn (index : LineIndex) (offset : Nat) : Nat × Nat :=
  let line := index.line offset
  have hline : line < index.starts.size := index.line_lt offset
  (line, offset - index.starts[line])

end LineIndex

end Mcfunction
