import Mcfunction.Proofs.Reading
import Mcfunction.Proofs.Returns.Chunk
import Mcfunction.Tree.Retelling

/-!
# Places without Carriage Returns

Each place of a text whose returns belong to line endings has its counterpart in the text without
them. Moving over characters leads from counterparts to counterparts, when the returns are not
counted.

## Main results

* `DosText.back_advance`, `DosText.back_skipTrivia`: moving on.
* `DosText.place_le_iff`, `DosText.le_place_iff`: offsets compare as their counterparts do, except
  right at a line ending.
-/

namespace Mcfunction

open Text (unix unixCount unixOffset unix_cons)

/-- A text whose returns belong to line endings. -/
structure DosText where
  /-- The characters. -/
  chars : List Char
  /-- After each return a line feed stands. -/
  paired : Text.Paired chars

namespace DosText

variable (t : DosText) {c d : Cursor} {m n : Nat} {x : Char} {tail : List Char}

/-- The place before the first character. -/
def start : Cursor :=
  ⟨0, t.chars⟩

/-- The offset in the text without returns. -/
def place (offset : Nat) : Nat :=
  unixOffset t.chars offset

/-- The place in the text without returns. -/
def back (c : Cursor) : Cursor :=
  ⟨t.place c.offset, unix c.rest⟩

variable {t}

/-- The place of a cursor in the text without returns has the place of its offset. -/
theorem back_offset : (t.back c).offset = t.place c.offset := rfl

/-- What is left at that place is what is left here, without the returns. -/
theorem back_rest : (t.back c).rest = unix c.rest := rfl

/-- What is left behind the start has its returns in pairs, as the whole text does. -/
theorem paired_rest (h : t.start ≤ c) : Text.Paired c.rest :=
  t.paired.of_suffix (Cursor.rest_suffix_of_le h)

/-- Places keep the order of offsets. -/
theorem place_mono : Monotone t.place :=
  Text.unixOffset_mono t.chars

/-- The place of the later of two offsets is the later of their places. -/
theorem place_max (offset offset' : Nat) :
    t.place (max offset offset') = max (t.place offset) (t.place offset') :=
  place_mono.map_max

/-- The place of the earlier of two offsets is the earlier of their places. -/
theorem place_min (offset offset' : Nat) :
    t.place (min offset offset') = min (t.place offset) (t.place offset') :=
  place_mono.map_min

/-- What stands before a place, and what is counted of it. -/
theorem exists_front (h : t.start ≤ c) : ∃ front, t.chars = front ++ c.rest ∧
    c.offset = byteWidth front ∧ t.place c.offset = byteWidth (unix front) := by
  obtain ⟨front, hrest, hoffset⟩ := h
  have hchars : t.chars = front ++ c.rest := hrest
  have hwidth : c.offset = byteWidth front := hoffset.trans (Nat.zero_add _)
  refine ⟨front, hchars, hwidth, ?_⟩
  rw [place, hchars, hwidth, Text.unixOffset_byteWidth]

/-- From a place on the bytes are counted as from the start of what follows it. -/
theorem place_add (h : t.start ≤ c) (offset : Nat) :
    t.place (c.offset + offset) = t.place c.offset + unixOffset c.rest offset := by
  obtain ⟨front, hchars, hwidth, hplace⟩ := exists_front h
  rw [hplace, place, hchars, hwidth, Text.unixOffset_append]

/-! ### Moving on -/

/-- Behind `n` characters the place has moved by what is left of them without the returns. -/
theorem place_add_take (h : t.start ≤ c) (n : Nat) :
    t.place (c.offset + byteWidth (c.rest.take n)) =
      t.place c.offset + byteWidth (unix (c.rest.take n)) := by
  have hwidth := Text.unixOffset_byteWidth (c.rest.take n) (c.rest.drop n)
  rw [List.take_append_drop] at hwidth
  rw [place_add h, hwidth]

/-- Behind a prefix the place has moved by what is left of the prefix without the returns. -/
theorem place_add_prefix {front : List Char} (h : t.start ≤ c) (hfront : front <+: c.rest) :
    t.place (c.offset + byteWidth front) = t.place c.offset + byteWidth (unix front) := by
  have hplace := place_add_take h front.length
  rwa [← List.prefix_iff_eq_take.mp hfront] at hplace

/-- Moving on by `n` characters is moving on by those of them that are not dropped. -/
theorem back_advance (h : t.start ≤ c) (hn : n ≤ c.rest.length) :
    (t.back c).advance (unixCount c.rest n) = t.back (c.advance n) := by
  have hoffset : ((t.back c).advance (unixCount c.rest n)).offset =
      (t.back (c.advance n)).offset := by
    rw [Cursor.advance_offset (Text.unixCount_le_length _ _), back_offset, back_offset, back_rest,
      ← Text.unix_take, Cursor.advance_offset hn, place_add_take h]
  have hrest : ((t.back c).advance (unixCount c.rest n)).rest = (t.back (c.advance n)).rest := by
    rw [Cursor.advance_rest, back_rest, back_rest, Cursor.advance_rest, Text.unix_drop]
  calc (t.back c).advance (unixCount c.rest n)
      = ⟨((t.back c).advance (unixCount c.rest n)).offset,
          ((t.back c).advance (unixCount c.rest n)).rest⟩ := rfl
    _ = t.back (c.advance n) := by rw [hoffset, hrest]

/-- Where no return is among them, the same number of characters is passed in both texts. -/
theorem back_advance_of_free (h : t.start ≤ c) (hn : Scan.ReturnFree c.rest n) :
    (t.back c).advance n = t.back (c.advance n) := by
  rw [← back_advance h hn.le_length, hn.unixCount_eq]

/-- The offset behind `n` characters has its place behind those of them that are not dropped. -/
theorem back_offsetAfter (h : t.start ≤ c) (hn : n ≤ c.rest.length) :
    (t.back c).offsetAfter (unixCount c.rest n) = t.place (c.offsetAfter n) := by
  rw [Cursor.offsetAfter, back_advance h hn]
  rfl

/-- Where no return is among them, the offset behind `n` characters has its place behind as many. -/
theorem back_offsetAfter_of_free (h : t.start ≤ c) (hn : Scan.ReturnFree c.rest n) :
    (t.back c).offsetAfter n = t.place (c.offsetAfter n) := by
  rw [Cursor.offsetAfter, back_advance_of_free h hn]
  rfl

/-- Characters without a return are all there in the text without returns. -/
theorem length_back_of_free (hn : Scan.ReturnFree c.rest n) : n ≤ (t.back c).rest.length := by
  have := Text.unixCount_le_length c.rest n
  rwa [hn.unixCount_eq] at this

/-- Places keep the order of cursors. -/
theorem back_le (h : t.start ≤ c) (hcd : c ≤ d) : t.back c ≤ t.back d := by
  obtain ⟨n, hn, rfl⟩ := Cursor.le_iff_exists_advance.mp hcd
  rw [← back_advance h hn]
  exact Cursor.le_advance (Text.unixCount_le_length _ _)

/-- The spacing at a place ends where the spacing of the text without returns ends. -/
theorem back_skipTrivia (h : t.start ≤ c) : (t.back c).skipTrivia = t.back c.skipTrivia := by
  rw [Cursor.skipTrivia, back_rest, Scan.trivia_unix (paired_rest h),
    back_advance h (Scan.trivia_le_length _)]
  rfl

/-- Statements end at the same place in both texts. -/
theorem back_statementEnd (h : t.start ≤ c) :
    (t.back c).offsetAfter (Scan.statement (t.back c).rest) =
      t.place (c.offsetAfter (Scan.statement c.rest)) := by
  rw [back_rest, Scan.statement_unix (paired_rest h),
    back_offsetAfter h (Scan.statement_le_length _)]

/-! ### Looking at characters -/

/-- The character at a place is the same, unless it is a return: then the line feed after it
stands at the counterpart. -/
theorem back_peek_cases (h : t.start ≤ c) : (t.back c).peek = c.peek ∨
    c.peek = some '\r' ∧ (t.back c).peek = some '\n' :=
  (paired_rest h).head?_unix

/-- The next character is the same unless it is a return. -/
theorem back_peek (h : t.start ≤ c) (hpeek : c.peek ≠ some '\r') : (t.back c).peek = c.peek := by
  rcases back_peek_cases h with heq | ⟨hreturn, -⟩
  · exact heq
  · exact absurd hreturn hpeek

/-- Whether the next character is `x` is the same in both texts, for an `x` that ends no line. -/
theorem back_peek_beq (h : t.start ≤ c) (hreturn : x ≠ '\r') (hnewline : x ≠ '\n') :
    ((t.back c).peek == some x) = (c.peek == some x) :=
  (paired_rest h).head?_beq_unix hreturn hnewline

/-- What neither character of a line ending tells is told at both places. -/
theorem back_peek_bind {α : Type} {f : Char → Option α} (h : t.start ≤ c) (hreturn : f '\r' = none)
    (hnewline : f '\n' = none) : (t.back c).peek.bind f = c.peek.bind f := by
  rcases back_peek_cases h with heq | ⟨hpeek, hpeek'⟩
  · rw [heq]
  · rw [hpeek, hpeek', Option.bind_some, Option.bind_some, hreturn, hnewline]

/-- After trivia no return stands. -/
theorem peek_skipTrivia (c : Cursor) : c.skipTrivia.peek ≠ some '\r' := by
  intro hpeek
  obtain ⟨rest, hrest⟩ := List.head?_eq_some_iff.mp hpeek
  have hstep := Scan.step_drop_repeated Scan.triviaStep_le_length c.rest
  rw [Cursor.skipTrivia, Cursor.advance_rest, Scan.trivia] at hrest
  rw [hrest] at hstep
  cases hstep

/-- A line ends here in both texts or in neither, unless a return comes next. -/
theorem back_atLineEnd (h : t.start ≤ c) (hpeek : c.peek ≠ some '\r') :
    Scan.atLineEnd (t.back c).rest = Scan.atLineEnd c.rest := by
  have hsame := back_peek h hpeek
  have hline : ∀ chars, Scan.atLineEnd chars = chars.head?.all (· == '\n') := by
    intro chars
    cases chars <;> rfl
  rw [hline, hline]
  exact congrArg (Option.all _) hsame

/-- What is left begins with a character that is no return. -/
theorem exists_of_not_return (hne : c.rest ≠ []) (hreturn : c.peek ≠ some '\r') :
    ∃ x tail, c.rest = x :: tail ∧ c.peek = some x ∧ x ≠ '\r' := by
  obtain ⟨x, tail, hrest⟩ := List.exists_cons_of_ne_nil hne
  have hpeek : c.peek = some x := by rw [Cursor.peek, hrest, List.head?_cons]
  exact ⟨x, tail, hrest, hpeek, fun heq => hreturn (heq ▸ hpeek)⟩

/-- One character that is no return is a run without returns. -/
theorem returnFree_one (hpeek : c.peek = some x) (hx : x ≠ '\r') : Scan.ReturnFree c.rest 1 := by
  obtain ⟨tail, hrest⟩ := List.head?_eq_some_iff.mp hpeek
  rw [hrest]
  exact .one (by simpa using hx)

/-- The end of the next character has its place behind the character, unless it is a return. -/
theorem back_charEnd (h : t.start ≤ c) : (t.back c).charEnd = t.place c.charEnd ∨
    c.peek = some '\r' := by
  rcases (paired_rest h).cases with hrest | ⟨tail, hrest⟩ | ⟨x, tail, hrest, hx⟩
  · left
    rw [Cursor.charEnd, Cursor.charEnd, back_rest, hrest]
    rfl
  · right
    rw [Cursor.peek, hrest]
    rfl
  · left
    have hne : c.rest ≠ [] := by simp [hrest]
    have hne' : (t.back c).rest ≠ [] := by simp [back_rest, hrest, unix_cons hx]
    have hone : Scan.ReturnFree c.rest 1 := by
      rw [hrest]
      exact .one (by simpa using hx)
    rw [Cursor.charEnd_eq hne, Cursor.charEnd_eq hne', back_advance_of_free h hone]
    rfl

/-- A character of one byte that is no return is counted as one byte. -/
theorem place_succ (h : t.start ≤ c) (hpeek : c.peek = some x) (hx : x ≠ '\r')
    (hsize : x.utf8Size = 1) : t.place (c.offset + 1) = t.place c.offset + 1 := by
  obtain ⟨tail, hrest⟩ := List.head?_eq_some_iff.mp hpeek
  rw [place_add h, hrest, Text.unixOffset_cons hx, hsize, Nat.sub_self, Text.unixOffset_zero]
  rfl

/-! ### Comparing offsets -/

/-- Past a character that is no return the counterparts go on. -/
theorem place_le_iff {offset : Nat} (h : t.start ≤ c) (hpeek : c.peek = some x) (hx : x ≠ '\r') :
    t.place offset ≤ t.place c.offset ↔ offset ≤ c.offset := by
  refine ⟨fun hle => ?_, fun hle => place_mono hle⟩
  by_contra hlt
  obtain ⟨k, rfl⟩ : ∃ k, offset = c.offset + k := ⟨offset - c.offset, by omega⟩
  obtain ⟨tail, hrest⟩ := List.head?_eq_some_iff.mp hpeek
  have hpos : 0 < unixOffset c.rest k := by
    rw [hrest]
    exact Text.unixOffset_pos hx (by omega)
  rw [place_add h] at hle
  omega

/-- Before a place that does not stand at a line feed the counterparts have not come up to it. -/
theorem le_place_iff {offset : Nat} (h : t.start ≤ c) (hpeek : c.peek ≠ some '\n') :
    t.place c.offset ≤ t.place offset ↔ c.offset ≤ offset := by
  refine ⟨fun hle => ?_, fun hle => place_mono hle⟩
  by_contra hlt
  obtain ⟨front, hchars, hwidth, hplace⟩ := exists_front h
  have hlast : front.getLast? ≠ some '\r' := by
    intro hlast
    obtain ⟨init, rfl⟩ := List.getLast?_eq_some_iff.mp hlast
    refine hpeek (t.paired init c.rest ?_)
    rw [hchars, List.append_assoc, List.singleton_append]
  have hcount : unixOffset (front ++ c.rest) offset < byteWidth (unix front) :=
    Text.unixOffset_lt hlast (by omega) c.rest
  rw [hplace, place, hchars] at hle
  omega

/-- At a character inside a line offsets are told apart as their counterparts are. -/
theorem place_beq {offset : Nat} (h : t.start ≤ c) (hline : Scan.atLineEnd c.rest = false)
    (hreturn : c.peek ≠ some '\r') :
    (t.place offset == t.place c.offset) = (offset == c.offset) := by
  have hnewline : c.peek ≠ some '\n' := by
    intro hpeek
    obtain ⟨tail, hrest⟩ := List.head?_eq_some_iff.mp hpeek
    rw [hrest] at hline
    cases hline
  obtain ⟨x, -, -, hpeek, hx⟩ := exists_of_not_return (Parser.ne_nil_of_not_atLineEnd hline) hreturn
  have hle : t.place offset ≤ t.place c.offset ↔ _ := place_le_iff h hpeek hx
  have hge : t.place c.offset ≤ t.place offset ↔ _ := le_place_iff h hnewline
  rw [Bool.eq_iff_iff, beq_iff_eq, beq_iff_eq]
  omega

/-! ### Text between places -/

/-- The text between two places is the same if no return is among it. -/
theorem back_textBetween (hn : Scan.ReturnFree c.rest n) :
    (t.back c).textBetween m n = c.textBetween m n := by
  rcases Nat.le_total n m with hle | hle
  · simp [Cursor.textBetween, Nat.sub_eq_zero_of_le hle]
  · rw [Cursor.textBetween, Cursor.textBetween, back_rest, ← List.drop_take, ← List.drop_take,
      hn.take_unix]

/-- A text without returns is its own text without returns. -/
theorem toUnix_textBetween (hn : Scan.ReturnFree c.rest n) :
    Text.toUnix (c.textBetween m n) = c.textBetween m n := by
  rcases Nat.le_total n m with hle | hle
  · simp [Cursor.textBetween, Nat.sub_eq_zero_of_le hle, Text.toUnix]
  · have hfree : '\r' ∉ (c.rest.drop m).take (n - m) := by
      rw [← List.drop_take]
      intro hmem
      exact absurd (hn.forall_mem _ (List.mem_of_mem_drop hmem)) (by decide)
    rw [Cursor.textBetween, Text.toUnix, String.toList_ofList, Text.unix_of_notMem hfree]

/-- What stands between two offsets stands there without its returns. -/
theorem back_slice? {i j : Nat} {chars : List Char} (h : t.start ≤ c)
    (hslice : c.slice? i j = some chars) :
    (t.back c).slice? (t.place i) (t.place j) = some (unix chars) ∧
      ∃ d n, t.start ≤ d ∧ chars = d.rest.take n := by
  obtain ⟨d, hd, hcut⟩ := Option.bind_eq_some_iff.mp hslice
  obtain ⟨hle, rfl⟩ := Cursor.at?_eq_some hd
  obtain ⟨rfl, rest, hrest⟩ := Cursor.cut?_eq_some hcut
  have hchars : chars = d.rest.take chars.length := by rw [hrest, List.take_left]
  have hstop := place_add_take (h.trans hle) chars.length
  rw [← hchars] at hstop
  refine ⟨?_, d, chars.length, h.trans hle, hchars⟩
  rw [Cursor.slice?, ← back_offset, Cursor.at?_offset (back_le h hle), Option.bind_some, hstop,
    back_rest, hrest, Text.unix_append]
  exact Cursor.cut?_append _ _ _

/-- How much stands between two places, when the returns are not counted. -/
theorem back_length_sub (hc : t.start ≤ c) (hd : t.start ≤ d) :
    (t.back c).rest.length - (t.back d).rest.length =
      unixCount c.rest (c.rest.length - d.rest.length) := by
  rcases Nat.le_total c.offset d.offset with hle | hle
  · obtain ⟨n, hn, rfl⟩ := Cursor.le_iff_exists_advance.mp (Cursor.le_of_offset_le hc hd hle)
    have hsub : c.rest.length - (c.rest.length - n) = n := by omega
    rw [← back_advance hc hn, Cursor.advance_rest, Cursor.advance_rest, List.length_drop,
      List.length_drop, hsub]
    exact Nat.sub_sub_self (Text.unixCount_le_length _ _)
  · have hdc := Cursor.le_of_offset_le hd hc hle
    have hlen := Cursor.length_le_of_le hdc
    have hlen' := Cursor.length_le_of_le (back_le hd hdc)
    rw [Nat.sub_eq_zero_of_le hlen, Nat.sub_eq_zero_of_le hlen']
    rfl

end DosText

end Mcfunction
