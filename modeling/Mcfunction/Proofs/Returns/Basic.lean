import Mathlib.Order.MinMax
import Mcfunction.Proofs.Cursor
import Mcfunction.Proofs.Scan.Basic
import Mcfunction.Text.LineEnding

/-!
# Runs and Trivia without Carriage Returns

A carriage return that a line feed follows is a blank at the end of a line. So what is taken at the
front of a text whose returns are all of this kind is taken too when they are left out: `run`,
`repeated`, trivia and statements find the same characters, less the returns among them.

`unixCount chars n` is how many of the first `n` characters are no returns.

## Main results

* `unix_drop`, `unix_take`: what is left and what is taken when the returns are left out.
* `run_unix`, `run_unix_of_return`: runs of a class.
* `repeated_unix`: repetitions of a step that treats a return as a blank.
* `continuation_unix`, `trivia_unix`, `statement_unix`, `trimEnd_unix`.
-/

namespace Mcfunction

namespace Text

variable {chars front tail : List Char} {m n : Nat} {c : Char}

/-! ### Leaving out -/

@[simp] theorem unix_nil : unix [] = [] := rfl

@[simp] theorem unix_return (chars : List Char) : unix ('\r' :: chars) = unix chars := rfl

/-- Any other character stays. -/
theorem unix_cons (hc : c ≠ '\r') (chars : List Char) : unix (c :: chars) = c :: unix chars := by
  simp [unix, hc]

@[simp] theorem unix_newline (chars : List Char) : unix ('\n' :: chars) = '\n' :: unix chars :=
  rfl

/-- Returns are left out of both parts of a text. -/
@[simp] theorem unix_append (front tail : List Char) :
    unix (front ++ tail) = unix front ++ unix tail :=
  List.filter_append ..

/-- Where there is no return, nothing is left out. -/
theorem unix_of_notMem (h : '\r' ∉ chars) : unix chars = chars := by
  refine List.filter_eq_self.mpr fun c hc => ?_
  have hne : c ≠ '\r' := fun heq => h (heq ▸ hc)
  simpa using hne

/-- No return is left. -/
theorem return_notMem_unix (chars : List Char) : '\r' ∉ unix chars := by
  simp [unix]

/-- Returns can be left out before or after turning a text around. -/
theorem unix_reverse (chars : List Char) : unix chars.reverse = (unix chars).reverse :=
  List.filter_reverse ..

/-! ### Counting -/

/-- How many of the first `n` characters are no carriage returns. -/
def unixCount (chars : List Char) (n : Nat) : Nat :=
  (unix (chars.take n)).length

@[simp] theorem unixCount_zero (chars : List Char) : unixCount chars 0 = 0 := rfl

/-- A return is not counted. -/
@[simp] theorem unixCount_return (chars : List Char) (n : Nat) :
    unixCount ('\r' :: chars) (n + 1) = unixCount chars n := rfl

/-- Any other character is counted. -/
theorem unixCount_cons (hc : c ≠ '\r') (chars : List Char) (n : Nat) :
    unixCount (c :: chars) (n + 1) = unixCount chars n + 1 := by
  rw [unixCount, List.take_succ_cons, unix_cons hc, List.length_cons]
  rfl

/-- A line feed is counted. -/
@[simp] theorem unixCount_newline (chars : List Char) (n : Nat) :
    unixCount ('\n' :: chars) (n + 1) = unixCount chars n + 1 := rfl

/-- Characters are counted part by part. -/
theorem unixCount_add (chars : List Char) (m n : Nat) :
    unixCount chars (m + n) = unixCount chars m + unixCount (chars.drop m) n := by
  rw [unixCount, List.take_add, unix_append, List.length_append]
  rfl

/-- More characters have at least as many that stay. -/
theorem unixCount_mono (chars : List Char) : Monotone (unixCount chars) := by
  intro m n hmn
  obtain ⟨k, rfl⟩ := Nat.exists_eq_add_of_le hmn
  rw [unixCount_add]
  exact Nat.le_add_right _ _

/-- Of all characters those that stay are counted. -/
theorem unixCount_length (chars : List Char) :
    unixCount chars chars.length = (unix chars).length := by
  rw [unixCount, List.take_length]

/-- What stays of the front and what stays of the rest is what stays. -/
theorem unix_take_append_drop (n : Nat) (chars : List Char) :
    unix (chars.take n) ++ unix (chars.drop n) = unix chars := by
  rw [← unix_append, List.take_append_drop]

/-- What stays of a front is a front of what stays. -/
theorem unix_take (chars : List Char) (n : Nat) :
    unix (chars.take n) = (unix chars).take (unixCount chars n) := by
  rw [unixCount, ← unix_take_append_drop n chars, List.take_left]

/-- What stays of the rest is the rest of what stays. -/
theorem unix_drop (chars : List Char) (n : Nat) :
    unix (chars.drop n) = (unix chars).drop (unixCount chars n) := by
  rw [unixCount, ← unix_take_append_drop n chars, List.drop_left]

/-- No more are counted than stay. -/
theorem unixCount_le_length (chars : List Char) (n : Nat) :
    unixCount chars n ≤ (unix chars).length := by
  rw [← unixCount_length, unixCount, unixCount, List.take_length, unix_take]
  exact List.length_take_le' ..

/-! ### Returns before line feeds -/

/-- Without returns each return is paired. -/
theorem Paired.of_notMem (h : '\r' ∉ chars) : Paired chars := by
  rintro front tail rfl
  exact absurd (by simp) h

/-- Returns are paired at the end of a text too. -/
theorem Paired.of_suffix (h : Paired chars) (hsuffix : tail <:+ chars) : Paired tail := by
  obtain ⟨front, rfl⟩ := hsuffix
  rintro before after rfl
  exact h (front ++ before) after (List.append_assoc ..).symm

/-- Returns are paired behind any number of characters. -/
theorem Paired.drop (h : Paired chars) (n : Nat) : Paired (chars.drop n) :=
  h.of_suffix (List.drop_suffix n chars)

/-- Returns are paired behind the first character. -/
theorem Paired.of_cons (h : Paired (c :: chars)) : Paired chars :=
  h.of_suffix (List.suffix_cons c chars)

/-- The returns in a front part are paired too, unless it ends between one and its line feed. -/
theorem Paired.of_append (h : Paired (front ++ tail)) (hnext : tail.head? ≠ some '\n') :
    Paired front := by
  intro before after hsplit
  have hhead := h before (after ++ tail) (by rw [hsplit, List.append_assoc, List.cons_append])
  rcases after with _ | ⟨x, after⟩
  · exact absurd hhead hnext
  · exact hhead

/-- A return is followed by a line feed. -/
theorem Paired.exists_newline (h : Paired ('\r' :: chars)) : ∃ tail, chars = '\n' :: tail :=
  List.head?_eq_some_iff.mp (h [] chars rfl)

/-- At the front of a text stands the end of a line with a return, or some other character. -/
theorem Paired.cases (h : Paired chars) : chars = [] ∨ (∃ tail, chars = '\r' :: '\n' :: tail) ∨
    ∃ c tail, chars = c :: tail ∧ c ≠ '\r' := by
  rcases chars with _ | ⟨c, chars⟩
  · exact .inl rfl
  · by_cases hc : c = '\r'
    · subst hc
      obtain ⟨tail, rfl⟩ := h.exists_newline
      exact .inr (.inl ⟨tail, rfl⟩)
    · exact .inr (.inr ⟨c, chars, rfl, hc⟩)

/-- What is answered at a line feed as at the end of a line with a return, and the same at any other
character, is answered the same everywhere. -/
theorem Paired.answer_unix {α : Type} {f : List Char → α}
    (hline : ∀ tail, f ('\n' :: unix tail) = f ('\r' :: '\n' :: tail))
    (hcons : ∀ c tail, c ≠ '\r' → Paired (c :: tail) → f (c :: unix tail) = f (c :: tail))
    (h : Paired chars) : f (unix chars) = f chars := by
  rcases h.cases with rfl | ⟨tail, rfl⟩ | ⟨c, tail, rfl, hc⟩
  · rfl
  · exact hline tail
  · rw [unix_cons hc]
    exact hcons c tail hc h

/-- A text of paired returns is empty if nothing of it stays. -/
theorem Paired.unix_eq_nil (h : Paired chars) : unix chars = [] ↔ chars = [] := by
  rcases h.cases with rfl | ⟨tail, rfl⟩ | ⟨c, tail, rfl, hc⟩
  · simp
  · simp
  · simp [unix_cons hc]

/-- The first character stays the first one, unless it is a return: then the line feed after it
is. -/
theorem Paired.head?_unix (h : Paired chars) : (unix chars).head? = chars.head? ∨
    chars.head? = some '\r' ∧ (unix chars).head? = some '\n' := by
  rcases h.cases with rfl | ⟨tail, rfl⟩ | ⟨c, tail, rfl, hc⟩
  · exact .inl rfl
  · exact .inr ⟨rfl, rfl⟩
  · exact .inl (by rw [unix_cons hc, List.head?_cons, List.head?_cons])

/-- Whether a character comes next does not depend on returns, unless it may end a line. -/
theorem Paired.head?_beq_unix {x : Char} (h : Paired chars) (hreturn : x ≠ '\r')
    (hnewline : x ≠ '\n') : ((unix chars).head? == some x) = (chars.head? == some x) := by
  rcases h.head?_unix with heq | ⟨hhead, hhead'⟩
  · rw [heq]
  · rw [hhead, hhead']
    simp [hreturn.symm, hnewline.symm]

/-- Whether one of a class comes next does not depend on returns, unless it may end a line. -/
theorem Paired.head?_any_unix {p : Char → Bool} (h : Paired chars) (hreturn : p '\r' = false)
    (hnewline : p '\n' = false) : (unix chars).head?.any p = chars.head?.any p := by
  rcases h.head?_unix with heq | ⟨hhead, hhead'⟩
  · rw [heq]
  · rw [hhead, hhead', Option.any_some, Option.any_some, hreturn, hnewline]

/-! ### Offsets -/

/-- A return is one byte less in the other text. -/
theorem unixOffset_return (chars : List Char) (offset : Nat) :
    unixOffset ('\r' :: chars) offset = unixOffset chars (offset - 1) := rfl

/-- Any other character has the same bytes in the other text. -/
theorem unixOffset_cons (hc : c ≠ '\r') (chars : List Char) (offset : Nat) :
    unixOffset (c :: chars) offset =
      min offset c.utf8Size + unixOffset chars (offset - c.utf8Size) := by
  rw [unixOffset, if_neg (by simpa using hc)]

/-- The front of the one text is the front of the other. -/
@[simp] theorem unixOffset_zero (chars : List Char) : unixOffset chars 0 = 0 := by
  induction chars with
  | nil => rfl
  | cons c chars ih => simp [unixOffset, ih]

/-- Later offsets stay no earlier. -/
theorem unixOffset_mono (chars : List Char) : Monotone (unixOffset chars) := by
  induction chars with
  | nil => exact monotone_id
  | cons c chars ih =>
      intro offset offset' h
      rw [unixOffset, unixOffset]
      split
      · exact ih (by omega)
      · have hrest : offset - c.utf8Size ≤ offset' - c.utf8Size := by omega
        have := ih hrest
        omega

/-- Past a front part its bytes are counted, less those of its returns. -/
theorem unixOffset_append (front rest : List Char) (offset : Nat) :
    unixOffset (front ++ rest) (byteWidth front + offset) =
      byteWidth (unix front) + unixOffset rest offset := by
  induction front with
  | nil => simp
  | cons c front ih =>
      rw [List.cons_append, byteWidth_cons]
      by_cases hc : c = '\r'
      · subst hc
        have hone : '\r'.utf8Size + byteWidth front + offset - 1 = byteWidth front + offset := by
          have : '\r'.utf8Size = 1 := rfl
          omega
        rw [unixOffset_return, hone, ih, unix_return]
      · have hrest : c.utf8Size + byteWidth front + offset - c.utf8Size =
            byteWidth front + offset := by omega
        have hmin : min (c.utf8Size + byteWidth front + offset) c.utf8Size = c.utf8Size := by omega
        rw [unixOffset_cons hc, hrest, hmin, ih, unix_cons hc, byteWidth_cons]
        omega

/-- The offset behind a front is that behind what stays of it. -/
@[simp] theorem unixOffset_byteWidth (front rest : List Char) :
    unixOffset (front ++ rest) (byteWidth front) = byteWidth (unix front) := by
  have happend := unixOffset_append front rest 0
  rwa [Nat.add_zero, unixOffset_zero, Nat.add_zero] at happend

/-- Past a character that is no return the count goes up. -/
theorem unixOffset_pos {offset : Nat} (hc : c ≠ '\r') (hoffset : 0 < offset) :
    0 < unixOffset (c :: chars) offset := by
  have := c.utf8Size_pos
  rw [unixOffset_cons hc]
  omega

/-- Before the end of a front part that does not end in a return fewer bytes are counted. -/
theorem unixOffset_lt {offset : Nat} (hlast : front.getLast? ≠ some '\r')
    (hoffset : offset < byteWidth front) (tail : List Char) :
    unixOffset (front ++ tail) offset < byteWidth (unix front) := by
  induction front generalizing offset with
  | nil => cases hoffset
  | cons c front ih =>
      have hsize := c.utf8Size_pos
      rw [byteWidth_cons] at hoffset
      rcases front with _ | ⟨x, front⟩
      · have hc : c ≠ '\r' := by simpa using hlast
        rw [List.cons_append, unixOffset_cons hc, unix_cons hc, byteWidth_cons,
          Nat.sub_eq_zero_of_le (by simpa using hoffset.le), unixOffset_zero]
        simp only [byteWidth_nil] at hoffset ⊢
        omega
      · have hnext : ∀ {offset}, offset < byteWidth (x :: front) →
            unixOffset (x :: front ++ tail) offset < byteWidth (unix (x :: front)) :=
          fun h => ih (by simpa using hlast) h
        have hpos : 0 < byteWidth (x :: front) := by
          have := x.utf8Size_pos
          rw [byteWidth_cons]
          omega
        rw [List.cons_append]
        by_cases hc : c = '\r'
        · subst hc
          have hone : '\r'.utf8Size = 1 := rfl
          rw [unixOffset_return, unix_return]
          exact hnext (by omega)
        · rw [unixOffset_cons hc, unix_cons hc, byteWidth_cons]
          rcases Nat.lt_or_ge offset c.utf8Size with hlt | hge
          · rw [Nat.sub_eq_zero_of_le hlt.le, unixOffset_zero]
            omega
          · have hrest : offset - c.utf8Size < byteWidth (x :: front) := by omega
            have := hnext hrest
            omega

end Text

namespace Scan

open Text

variable {chars : List Char} {p : Char → Bool} {n : Nat}

/-! ### Runs -/

/-- A run of a class that no character of a line ending belongs to. -/
theorem run_unix (hreturn : p '\r' = false) (hnewline : p '\n' = false) (h : Paired chars) :
    run p (unix chars) = run p chars := by
  induction chars with
  | nil => rfl
  | cons c chars ih =>
      by_cases hc : c = '\r'
      · subst hc
        obtain ⟨tail, rfl⟩ := h.exists_newline
        simp [run_cons, hreturn, hnewline]
      · rw [unix_cons hc, run_cons, run_cons, ih h.of_cons]

/-- A run of a class that carriage returns belong to. -/
theorem run_unix_of_return (hreturn : p '\r') (chars : List Char) :
    run p (unix chars) = unixCount chars (run p chars) := by
  induction chars with
  | nil => rfl
  | cons c chars ih =>
      by_cases hc : c = '\r'
      · subst hc
        rw [unix_return, run_cons, if_pos hreturn, unixCount_return, ih]
      · rw [unix_cons hc, run_cons, run_cons]
        split
        · rw [unixCount_cons hc, ih]
        · rfl

/-- A run that must not be empty is the same without returns. -/
theorem run?_unix (hreturn : p '\r' = false) (hnewline : p '\n' = false) (h : Paired chars) :
    run? p (unix chars) = run? p chars := by
  rw [run?, run_unix hreturn hnewline h, run?]

/-! ### Text without returns -/

/-- So many characters are there, and none of them is a carriage return. -/
abbrev ReturnFree (chars : List Char) (n : Nat) : Prop :=
  Taken (· != '\r') chars n

/-- Characters of a class without the return are free of returns. -/
theorem Taken.returnFree (h : Taken p chars n) (hp : p '\r' = false) : ReturnFree chars n := by
  refine h.mono fun c hc => ?_
  rw [bne_iff_ne]
  rintro rfl
  rw [hp] at hc
  cases hc

namespace ReturnFree

variable {m : Nat} (h : ReturnFree chars n)

include h

/-- Characters free of returns all stay. -/
theorem unix_take_eq : unix (chars.take n) = chars.take n :=
  List.filter_eq_self.mpr h.forall_mem

/-- They are all counted. -/
theorem unixCount_eq : unixCount chars n = n := by
  rw [unixCount, h.unix_take_eq, List.length_take, Nat.min_eq_left h.le_length]

/-- They are the same in the other text. -/
theorem take_unix : (unix chars).take n = chars.take n := by
  have htake := unix_take chars n
  rwa [h.unixCount_eq, h.unix_take_eq, eq_comm] at htake

/-- What follows them is what stays of what follows. -/
theorem drop_unix : (unix chars).drop n = unix (chars.drop n) := by
  have hdrop := unix_drop chars n
  rwa [h.unixCount_eq, eq_comm] at hdrop

/-- Fewer of them are free of returns too. -/
theorem of_le (hmn : m ≤ n) : ReturnFree chars m :=
  Taken.of_le h hmn

/-- So are those behind the first few. -/
theorem drop (m : Nat) : ReturnFree (chars.drop m) (n - m) := by
  refine ⟨?_, fun c hc => h.forall_mem c ?_⟩
  · rw [List.length_drop]
    exact Nat.sub_le_sub_right h.le_length m
  · rw [← List.drop_take] at hc
    exact List.mem_of_mem_drop hc

/-- If another character than a return comes behind them, one more is free of returns. -/
theorem next {c : Char} {tail : List Char} (hdrop : chars.drop n = c :: tail) (hc : c ≠ '\r') :
    ReturnFree chars (n + 1) ∧ chars.drop (n + 1) = tail := by
  constructor
  · refine Taken.add h ?_
    rw [hdrop]
    exact .one (by simpa using hc)
  · rw [← List.drop_drop, hdrop]
    rfl

end ReturnFree

/-- Text on one line is free of returns, unless a line feed comes next. -/
theorem Inline.returnFree (h : Inline chars n) (hpaired : Paired chars)
    (hnext : (chars.drop n).head? ≠ some '\n') : ReturnFree chars n := by
  refine ⟨h.le_length, fun c hc => ?_⟩
  rw [bne_iff_ne]
  rintro rfl
  obtain ⟨front, tail, hsplit⟩ := List.append_of_mem hc
  have hchars : chars = front ++ '\r' :: (tail ++ chars.drop n) := by
    rw [← List.cons_append, ← List.append_assoc, ← hsplit, List.take_append_drop]
  have hhead := hpaired _ _ hchars
  rcases tail with _ | ⟨x, tail⟩
  · exact hnext hhead
  · obtain rfl : x = '\n' := by simpa using hhead
    exact h.newline_notMem (by rw [hsplit]; simp)

/-- Text on one line that ends with another character is free of returns. -/
theorem Inline.returnFree_succ {c : Char} {tail : List Char} (h : Inline chars (n + 1))
    (hpaired : Paired chars) (hlast : chars.drop n = c :: tail) (hc : c ≠ '\r') :
    ReturnFree chars (n + 1) := by
  have hnewline : c ≠ '\n' := by
    rintro rfl
    exact h.newline_notMem (by rw [List.take_add, hlast]; simp)
  refine (h.of_succ.returnFree hpaired (by simpa [hlast] using hnewline)).add ?_
  rw [hlast]
  exact .one (by simpa using hc)

/-- A return on one line stands at its end. -/
theorem Inline.returnFree_or (h : Inline chars n) (hpaired : Paired chars) : ReturnFree chars n ∨
    ∃ m, n = m + 1 ∧ ReturnFree chars m ∧ ∃ tail, chars.drop m = '\r' :: tail := by
  rcases n with _ | m
  · exact .inl (.zero _ _)
  · rcases hdrop : chars.drop m with _ | ⟨c, tail⟩
    · have := List.drop_eq_nil_iff.mp hdrop
      have := h.le_length
      omega
    · by_cases hc : c = '\r'
      · subst hc
        have hfront : Inline chars m := h.of_succ
        exact .inr ⟨m, rfl, hfront.returnFree hpaired (by simp [hdrop]), tail, hdrop⟩
      · exact .inl (h.returnFree_succ hpaired hdrop hc)

/-- Of text on one line all characters stay but a return at its end. -/
theorem Inline.unixCount_eq (h : Inline chars n) (hpaired : Paired chars) :
    unixCount chars n = n - if (chars.take n).getLast? == some '\r' then 1 else 0 := by
  rcases h.returnFree_or hpaired with hfree | ⟨m, rfl, hfree, tail, hdrop⟩
  · have hlast : (chars.take n).getLast? ≠ some '\r' := fun hlast =>
      absurd (hfree.forall_mem _ (List.mem_of_getLast? hlast)) (by decide)
    rw [hfree.unixCount_eq, if_neg (by simpa using hlast), Nat.sub_zero]
  · have hlast : (chars.take (m + 1)).getLast? = some '\r' := by
      rw [List.take_add, hdrop]
      simp
    rw [unixCount_add, hfree.unixCount_eq, hdrop, hlast]
    rfl

/-- What stays of text on one line is a front of the text. -/
theorem Inline.returnFree_unixCount (h : Inline chars n) (hpaired : Paired chars) :
    ReturnFree chars (unixCount chars n) := by
  rcases h.returnFree_or hpaired with hfree | ⟨m, rfl, hfree, tail, hdrop⟩
  · rwa [hfree.unixCount_eq]
  · rw [unixCount_add, hfree.unixCount_eq, hdrop]
    exact hfree

/-! ### Repetitions -/

/-- A step that takes returns one by one, or none of them, and otherwise the same characters less
the returns among them, is repeated as often. -/
theorem repeated_unix {step : List Char → Nat} (hle : ∀ chars, step chars ≤ chars.length)
    (hreturn : ∀ chars, step ('\r' :: '\n' :: chars) = 1 ∨
      step ('\r' :: '\n' :: chars) = 0 ∧ ∀ chars, step ('\n' :: chars) = 0)
    (hstep : ∀ c chars, c ≠ '\r' → Paired (c :: chars) →
      step (unix (c :: chars)) = unixCount (c :: chars) (step (c :: chars)))
    (h : Paired chars) :
    repeated step 0 (unix chars) = unixCount chars (repeated step 0 chars) := by
  refine repeated_induction (motive := fun chars n =>
    Paired chars → repeated step 0 (unix chars) = unixCount chars n) hle ?stop ?more chars h
  case stop =>
    intro chars hzero h
    refine repeated_of_step_zero ?_
    rcases h.cases with rfl | ⟨tail, rfl⟩ | ⟨c, tail, rfl, hc⟩
    · exact hzero
    · rcases hreturn tail with hone | ⟨-, hnewline⟩
      · omega
      · exact hnewline _
    · rw [hstep c tail hc h, hzero, unixCount_zero]
  case more =>
    intro chars n hpos ih h
    rw [unixCount_add, ← ih (h.drop _)]
    rcases h.cases with rfl | ⟨tail, rfl⟩ | ⟨c, tail, rfl, hc⟩
    · have := hle []
      simp only [List.length_nil] at this
      omega
    · have hone : step ('\r' :: '\n' :: tail) = 1 := by
        rcases hreturn tail with hone | ⟨hzero, -⟩
        · exact hone
        · omega
      rw [hone, unixCount_return, unixCount_zero, Nat.zero_add]
      rfl
    · have hsame := hstep c tail hc h
      have hcount : 0 < step (unix (c :: tail)) := by
        obtain ⟨k, hk⟩ : ∃ k, step (c :: tail) = k + 1 := ⟨step (c :: tail) - 1, by omega⟩
        rw [hsame, hk, unixCount_cons hc]
        exact Nat.succ_pos _
      rw [repeated_of_step_pos hcount (hle _), hsame, ← unix_drop]

/-- A step over characters of a class that no character of a line ending belongs to. -/
theorem repeated_unix_of_taken {step : List Char → Nat}
    (htaken : ∀ chars, Taken p chars (step chars)) (hreturn : p '\r' = false)
    (hnewline : p '\n' = false)
    (hstep : ∀ chars, Paired chars → step (unix chars) = step chars) (h : Paired chars) :
    repeated step 0 (unix chars) = repeated step 0 chars := by
  have hzero : ∀ {c}, p c = false → ∀ chars, step (c :: chars) = 0 := by
    intro c hc chars
    by_contra hpos
    obtain ⟨k, hk⟩ := Nat.exists_eq_succ_of_ne_zero hpos
    have hmem := htaken (c :: chars)
    rw [hk] at hmem
    rw [hmem.of_cons.1] at hc
    cases hc
  rw [← ((taken_repeated htaken chars).returnFree hreturn).unixCount_eq]
  refine repeated_unix (fun chars => (htaken chars).le_length)
    (fun chars => .inr ⟨hzero hreturn _, hzero hnewline⟩) (fun c chars _ h => ?_) h
  rw [hstep _ h, ((htaken _).returnFree hreturn).unixCount_eq]

/-! ### Trivia and statements -/

/-- A line continuation may have a return before its line feed. -/
theorem continuation_unix (h : Paired chars) :
    continuation (unix chars) = (continuation chars).map (unixCount chars) := by
  rcases h.cases with rfl | ⟨tail, rfl⟩ | ⟨c, tail, rfl, hc⟩
  · rfl
  · rfl
  · by_cases hslash : c = '\\'
    · subst hslash
      have hrun : run (fun c => c == ' ' || c == '\t') (unix tail) = _ :=
        run_unix rfl rfl h.of_cons
      have hfree := (taken_run (fun c => c == ' ' || c == '\t') tail).returnFree rfl
      rw [unix_cons hc]
      simp only [continuation, hrun, hfree.drop_unix]
      generalize run (fun c => c == ' ' || c == '\t') tail = k at hfree
      have hcount : ∀ n, unixCount ('\\' :: tail) (k + (n + 1)) =
          k + unixCount (tail.drop k) n + 1 := by
        intro n
        rw [← Nat.add_assoc, unixCount_cons hc, unixCount_add, hfree.unixCount_eq]
      rcases (h.of_cons.drop k).cases with hdrop | ⟨rest, hdrop⟩ | ⟨x, rest, hdrop, hx⟩
      · rw [hdrop]
        rfl
      · have := hcount 2
        rw [hdrop] at this
        rw [hdrop]
        simpa using this.symm
      · have hcount := hcount 1
        rw [hdrop] at hcount ⊢
        rw [unix_cons hx]
        by_cases hnewline : x = '\n'
        · subst hnewline
          simpa using hcount.symm
        · simp [hnewline, hx]
    · have hnone : ∀ tail, continuation (c :: tail) = none := by
        intro tail
        simp [continuation, hslash]
      rw [unix_cons hc, hnone, hnone]
      rfl

/-- A turn of trivia keeps the characters that stay. -/
theorem triviaStep_unix {c : Char} (hc : c ≠ '\r') (h : Paired (c :: chars)) :
    triviaStep (unix (c :: chars)) = unixCount (c :: chars) (triviaStep (c :: chars)) := by
  have hcontinuation := continuation_unix h
  rw [unix_cons hc] at hcontinuation ⊢
  simp only [triviaStep, hcontinuation]
  split
  · rw [unixCount_cons hc, unixCount_zero]
  · rcases continuation (c :: chars) with _ | k
    · rfl
    · rfl

/-- Trivia are the same up to returns. -/
theorem trivia_unix (h : Paired chars) : trivia (unix chars) = unixCount chars (trivia chars) :=
  repeated_unix triviaStep_le_length (fun _ => .inl rfl) (fun _ _ => triviaStep_unix) h

/-- A turn of a statement keeps the characters that stay. -/
theorem statementStep_unix {c : Char} (hc : c ≠ '\r') (h : Paired (c :: chars)) :
    statementStep (unix (c :: chars)) = unixCount (c :: chars) (statementStep (c :: chars)) := by
  have hcontinuation := continuation_unix h
  rw [unix_cons hc] at hcontinuation ⊢
  simp only [statementStep, hcontinuation]
  split
  · rfl
  · rcases continuation (c :: chars) with _ | k
    · rw [Option.map_none, Option.getD_none, unixCount_cons hc, unixCount_zero]
    · rfl

/-- A statement is the same up to returns. -/
theorem statement_unix (h : Paired chars) :
    statement (unix chars) = unixCount chars (statement chars) :=
  repeated_unix statementStep_le_length (fun _ => .inl rfl) (fun _ _ => statementStep_unix) h

/-- Dropping characters of a class with the return drops what stays of them. -/
theorem dropWhile_unix (hreturn : p '\r') (chars : List Char) :
    (unix chars).dropWhile p = unix (chars.dropWhile p) := by
  induction chars with
  | nil => rfl
  | cons c chars ih =>
      by_cases hc : c = '\r'
      · subst hc
        rw [unix_return, List.dropWhile_cons_of_pos hreturn, ih]
      · rw [unix_cons hc]
        by_cases hp : p c
        · rw [List.dropWhile_cons_of_pos hp, List.dropWhile_cons_of_pos hp, ih]
        · rw [List.dropWhile_cons_of_neg hp, List.dropWhile_cons_of_neg hp, unix_cons hc]

/-- Dropping blanks at the end drops what stays of them. -/
theorem trimEnd_unix (chars : List Char) : trimEnd (unix chars) = unix (trimEnd chars) := by
  rw [trimEnd, trimEnd, ← unix_reverse, dropWhile_unix rfl, unix_reverse]

end Scan

end Mcfunction
