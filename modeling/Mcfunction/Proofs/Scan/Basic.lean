import Mathlib.Data.List.TakeWhile
import Mathlib.Order.Nat
import Mcfunction.Scan.Trivia

/-!
# Runs, Repetitions and Statements

What the two ways of taking text, `run` and `repeated`, take, and how far the statement at the
front of a text reaches.

A recognizer answers with a count of characters. `Inline chars count` says that so many
characters are there and that no line break is among them: this holds of every token, and it
keeps a token inside its statement.

## Main results

* `repeated_induction`: the induction behind everything that `repeated` takes.
* `Inline.le_statement`: what stands on one line belongs to the statement.
* `add_statement_drop_le`: a place inside a statement does not reach beyond it.
* `statement_drop_or_torn`: such a place ends with the statement, or stands inside a line
  continuation.
-/

namespace Mcfunction.Scan

variable {chars : List Char} {p : Char → Bool} {m n : Nat}

/-! ### Runs -/

@[simp] theorem run_nil (p : Char → Bool) : run p [] = 0 := rfl

/-- A run goes on with its first character if this is of the class, and is empty otherwise. -/
theorem run_cons (p : Char → Bool) (c : Char) (chars : List Char) :
    run p (c :: chars) = if p c then run p chars + 1 else 0 := by
  by_cases h : p c <;> simp [run, h]

/-- A run stays in the text. -/
theorem run_le_length (p : Char → Bool) (chars : List Char) : run p chars ≤ chars.length :=
  (List.takeWhile_prefix p).length_le

/-- The characters of a run are the longest front of the text that is all of the class. -/
theorem take_run (p : Char → Bool) (chars : List Char) :
    chars.take (run p chars) = chars.takeWhile p :=
  (List.prefix_iff_eq_take.mp (List.takeWhile_prefix p)).symm

/-- Text of the class in front of other text is part of the run there. -/
theorem run_append_of_forall {piece : List Char} (h : ∀ c ∈ piece, p c) (tail : List Char) :
    run p (piece ++ tail) = piece.length + run p tail := by
  rw [run, List.takeWhile_append_of_pos h, List.length_append, run]

/-- A run stops at a character outside the class. -/
theorem run_stop {x : Char} {rest : List Char} (h : chars.drop (run p chars) = x :: rest) :
    p x = false := by
  induction chars with
  | nil => simp at h
  | cons c chars ih =>
      rw [run_cons] at h
      split at h
      · exact ih h
      · rename_i hc
        obtain rfl := (List.cons.inj h).1
        simpa using hc

/-- A run that must not be empty is a run of at least one character. -/
theorem run?_eq_some : run? p chars = some n ↔ run p chars = n ∧ 0 < n := by
  unfold run?
  rcases h : run p chars with _ | k <;> simp <;> omega

/-! ### Repetitions -/

/-- At the end of the text no step is left to take. -/
@[simp] theorem repeated_nil (step : List Char → Nat) (pending : Nat) :
    repeated step pending [] = 0 := by
  cases pending <;> rfl

/-- Characters that are pending are taken first. -/
theorem repeated_pending (step : List Char → Nat) (pending : Nat) (chars : List Char)
    (h : pending ≤ chars.length) :
    repeated step pending chars = pending + repeated step 0 (chars.drop pending) := by
  induction pending generalizing chars with
  | zero => simp
  | succ pending ih =>
      rcases chars with _ | ⟨c, chars⟩
      · simp at h
      · rw [repeated, ih chars (by simpa using h), List.drop_succ_cons]
        omega

/-- A step that takes nothing ends a repetition. -/
theorem repeated_of_step_zero {step : List Char → Nat} (h : step chars = 0) :
    repeated step 0 chars = 0 := by
  rcases chars with _ | ⟨c, chars⟩
  · rfl
  · rw [repeated, h]

/-- A step that takes something is followed by the repetition behind it. -/
theorem repeated_of_step_pos {step : List Char → Nat} (h : 0 < step chars)
    (hle : step chars ≤ chars.length) :
    repeated step 0 chars = step chars + repeated step 0 (chars.drop (step chars)) := by
  rcases chars with _ | ⟨c, chars⟩
  · simp at hle; omega
  · obtain ⟨k, hk⟩ : ∃ k, step (c :: chars) = k + 1 := ⟨step (c :: chars) - 1, by omega⟩
    rw [hk] at hle
    rw [repeated, hk, List.drop_succ_cons]
    simp only
    rw [repeated_pending step k chars (by simpa using hle)]
    omega

/-- What holds of the empty front part where `step` takes nothing, and of the front part that
starts with a step if it holds of the rest, holds of all that is taken. -/
theorem repeated_induction {step : List Char → Nat} {motive : List Char → Nat → Prop}
    (hle : ∀ chars, step chars ≤ chars.length)
    (stop : ∀ chars, step chars = 0 → motive chars 0)
    (more : ∀ chars n, 0 < step chars → motive (chars.drop (step chars)) n →
      motive chars (step chars + n))
    (chars : List Char) : motive chars (repeated step 0 chars) := by
  induction h : chars.length using Nat.strong_induction_on generalizing chars with
  | _ length ih =>
      rcases Nat.eq_zero_or_pos (step chars) with hzero | hpos
      · rw [repeated_of_step_zero hzero]
        exact stop chars hzero
      · rw [repeated_of_step_pos hpos (hle chars)]
        refine more chars _ hpos (ih _ ?_ _ rfl)
        have := hle chars
        rw [List.length_drop]
        omega

/-- A repetition of steps that stay in the text stays in the text. -/
theorem repeated_le_length {step : List Char → Nat} (hle : ∀ chars, step chars ≤ chars.length)
    (chars : List Char) : repeated step 0 chars ≤ chars.length := by
  refine repeated_induction (motive := fun chars n => n ≤ chars.length) hle
    (fun _ _ => Nat.zero_le _) ?_ chars
  intro chars n _ ih
  have := hle chars
  rw [List.length_drop] at ih
  omega

/-- Where a repetition ends, no further step is possible. -/
theorem step_drop_repeated {step : List Char → Nat} (hle : ∀ chars, step chars ≤ chars.length)
    (chars : List Char) : step (chars.drop (repeated step 0 chars)) = 0 := by
  refine repeated_induction (motive := fun chars n => step (chars.drop n) = 0) hle
    (fun _ h => h) ?_ chars
  intro chars n _ ih
  rwa [List.drop_drop] at ih

/-! ### Text on one line -/

/-- So many characters are there, and no line break is among them. -/
structure Inline (chars : List Char) (count : Nat) : Prop where
  /-- The characters are there. -/
  le_length : count ≤ chars.length
  /-- No line break is among them. -/
  newline_notMem : '\n' ∉ chars.take count

namespace Inline

/-- No characters are on one line. -/
theorem zero (chars : List Char) : Inline chars 0 :=
  ⟨Nat.zero_le _, by simp⟩

/-- A character that is no line feed can be added in front. -/
theorem cons {c : Char} (hc : c ≠ '\n') (h : Inline chars n) : Inline (c :: chars) (n + 1) :=
  ⟨by simpa using h.le_length, by simpa [Ne.symm hc] using h.newline_notMem⟩

/-- One character that is no line feed. -/
theorem one {c : Char} (hc : c ≠ '\n') : Inline (c :: chars) 1 :=
  cons hc (zero chars)

/-- What is on one line is so without its first character. -/
theorem of_cons {c : Char} (h : Inline (c :: chars) (n + 1)) : Inline chars n :=
  ⟨by simpa using h.le_length, fun hmem => h.newline_notMem (by simp [hmem])⟩

/-- What is on one line is so without its last character. -/
theorem of_succ (h : Inline chars (n + 1)) : Inline chars n :=
  ⟨Nat.le_of_succ_le h.le_length, fun hmem =>
    h.newline_notMem (List.take_subset_take_left _ (Nat.le_succ n) hmem)⟩

/-- What is on one line one after the other is on one line together. -/
theorem add (h : Inline chars m) (h' : Inline (chars.drop m) n) : Inline chars (m + n) := by
  refine ⟨?_, ?_⟩
  · have := h.le_length
    have := h'.le_length
    rw [List.length_drop] at this
    omega
  · rw [List.take_add, List.mem_append]
    exact not_or.mpr ⟨h.newline_notMem, h'.newline_notMem⟩

end Inline

/-! ### Text of one class -/

/-- So many characters are there, and all of them are of the class. -/
structure Taken (p : Char → Bool) (chars : List Char) (count : Nat) : Prop where
  /-- The characters are there. -/
  le_length : count ≤ chars.length
  /-- They are of the class. -/
  forall_mem : ∀ c ∈ chars.take count, p c

namespace Taken

/-- No characters are all of any class. -/
theorem zero (p : Char → Bool) (chars : List Char) : Taken p chars 0 :=
  ⟨Nat.zero_le _, by simp⟩

/-- A character of the class can be added in front. -/
theorem cons {c : Char} (hc : p c) (h : Taken p chars n) : Taken p (c :: chars) (n + 1) :=
  ⟨by simpa using h.le_length, List.forall_mem_cons.mpr ⟨hc, h.forall_mem⟩⟩

/-- One character of the class. -/
theorem one {c : Char} (hc : p c) : Taken p (c :: chars) 1 :=
  cons hc (zero p chars)

/-- The first of the characters is of the class, and so are those behind it. -/
theorem of_cons {c : Char} (h : Taken p (c :: chars) (n + 1)) : p c ∧ Taken p chars n := by
  obtain ⟨hlen, hmem⟩ := h
  obtain ⟨hc, hmem⟩ := List.forall_mem_cons.mp hmem
  exact ⟨hc, by simpa using hlen, hmem⟩

/-- Characters of a class one after the other are of the class together. -/
theorem add (h : Taken p chars m) (h' : Taken p (chars.drop m) n) : Taken p chars (m + n) := by
  refine ⟨?_, ?_⟩
  · have := h.le_length
    have := h'.le_length
    rw [List.length_drop] at this
    omega
  · rw [List.take_add]
    exact List.forall_mem_append.mpr ⟨h.forall_mem, h'.forall_mem⟩

/-- Fewer of the characters are of the class too. -/
theorem of_le (h : Taken p chars n) (hmn : m ≤ n) : Taken p chars m := by
  refine ⟨hmn.trans h.le_length, fun c hc => h.forall_mem c ?_⟩
  exact (List.take_subset_take_left _ hmn) hc

/-- Characters of a class are of every wider class. -/
theorem mono {q : Char → Bool} (h : Taken p chars n) (hpq : ∀ c, p c → q c) : Taken q chars n :=
  ⟨h.le_length, fun c hc => hpq c (h.forall_mem c hc)⟩

/-- Text of a class without the line break stands on one line. -/
theorem inline (h : Taken p chars n) (hp : p '\n' = false) : Inline chars n := by
  refine ⟨h.le_length, fun hmem => ?_⟩
  have hnewline := h.forall_mem _ hmem
  rw [hp] at hnewline
  cases hnewline

end Taken

/-- The characters of a run are of its class. -/
theorem taken_run (p : Char → Bool) (chars : List Char) : Taken p chars (run p chars) := by
  refine ⟨run_le_length p chars, ?_⟩
  rw [take_run]
  intro c hc
  exact List.mem_takeWhile_imp hc

/-- So are those of a run that must not be empty. -/
theorem taken_run? (h : run? p chars = some n) : Taken p chars n := by
  obtain ⟨rfl, -⟩ := run?_eq_some.mp h
  exact taken_run p chars

/-- If each step takes characters of a class only, so does their repetition. -/
theorem taken_repeated {step : List Char → Nat} (h : ∀ chars, Taken p chars (step chars))
    (chars : List Char) : Taken p chars (repeated step 0 chars) :=
  repeated_induction (fun chars => (h chars).le_length) (fun chars _ => .zero p chars)
    (fun chars _ _ ih => (h chars).add ih) chars

/-- A run of a class without the line break stands on one line. -/
theorem inline_run (hp : p '\n' = false) (chars : List Char) : Inline chars (run p chars) :=
  (taken_run p chars).inline hp

/-- A run without line feeds in its class is on one line. -/
theorem inline_run? (hp : p '\n' = false) (h : run? p chars = some n) : Inline chars n :=
  (taken_run? h).inline hp

/-! ### Continuations -/

/-- A line continuation is a backslash, blanks and a line break. -/
theorem continuation_eq_some (h : continuation chars = some n) :
    ∃ gap tail, chars = '\\' :: (gap ++ '\n' :: tail) ∧ (∀ c ∈ gap, isBlank c) ∧
      n = gap.length + 2 := by
  unfold continuation at h
  split at h
  · rename_i chars
    have htake := take_run (fun c => c == ' ' || c == '\t') chars
    have hblank : ∀ c ∈ chars.take (run (fun c => c == ' ' || c == '\t') chars), isBlank c := by
      intro c hc
      rw [htake] at hc
      have := List.mem_takeWhile_imp hc
      simp only [isBlank, Bool.or_eq_true] at this ⊢
      exact .inl this
    have hlen : (chars.take (run (fun c => c == ' ' || c == '\t') chars)).length = _ :=
      List.length_take_of_le (run_le_length (fun c => c == ' ' || c == '\t') chars)
    generalize run (fun c => c == ' ' || c == '\t') chars = k at h hblank hlen
    have happ := List.take_append_drop k chars
    simp only at h
    split at h
    · rename_i tail htail
      rw [htail] at happ
      cases h
      exact ⟨_, tail, by rw [happ], hblank, by omega⟩
    · rename_i tail htail
      rw [htail] at happ
      cases h
      refine ⟨chars.take k ++ ['\r'], tail, by simp [happ], ?_,
        by rw [List.length_append, hlen]; rfl⟩
      intro c hc
      rcases List.mem_append.mp hc with hc | hc
      · exact hblank c hc
      · simp only [List.mem_singleton] at hc
        subst hc
        rfl
    · cases h
  · cases h

/-- A continuation stays in the text. -/
theorem continuation_le_length (h : continuation chars = some n) : n ≤ chars.length := by
  obtain ⟨gap, tail, rfl, -, rfl⟩ := continuation_eq_some h
  simp

/-- A continuation has at least its backslash and its line feed. -/
theorem two_le_continuation (h : continuation chars = some n) : 2 ≤ n := by
  obtain ⟨gap, tail, -, -, rfl⟩ := continuation_eq_some h
  omega

/-! ### Steps of trivia and of statements -/

/-- A turn of trivia stays in the text. -/
theorem triviaStep_le_length (chars : List Char) : triviaStep chars ≤ chars.length := by
  rcases chars with _ | ⟨c, chars⟩
  · rfl
  · simp only [triviaStep]
    split
    · simp
    · rcases h : continuation (c :: chars) with _ | k
      · simp
      · exact continuation_le_length h

/-- A turn of a statement stays in the text. -/
theorem statementStep_le_length (chars : List Char) : statementStep chars ≤ chars.length := by
  rcases chars with _ | ⟨c, chars⟩
  · rfl
  · simp only [statementStep]
    split
    · simp
    · rcases h : continuation (c :: chars) with _ | k
      · simp
      · exact continuation_le_length h

/-- A step over trivia is a step of the statement. -/
theorem statementStep_of_triviaStep_pos (h : 0 < triviaStep chars) :
    statementStep chars = triviaStep chars := by
  rcases chars with _ | ⟨c, chars⟩
  · simp [triviaStep] at h
  · simp only [triviaStep, statementStep] at h ⊢
    by_cases hblank : isBlank c
    · have hc : c ≠ '\n' := by rintro rfl; exact absurd hblank (by decide)
      have hslash : c ≠ '\\' := by rintro rfl; exact absurd hblank (by decide)
      have hcont : continuation (c :: chars) = none := by
        unfold continuation
        split
        · simp_all
        · rfl
      simp [hblank, hc, hcont]
    · rcases hcont : continuation (c :: chars) with _ | k
      · simp [hblank, hcont] at h
      · obtain ⟨gap, tail, hchars, -, -⟩ := continuation_eq_some hcont
        have hc : c ≠ '\n' := by
          rintro rfl
          simp at hchars
        simp [hblank, hc]

/-- Trivia stay in the text. -/
theorem trivia_le_length (chars : List Char) : trivia chars ≤ chars.length :=
  repeated_le_length triviaStep_le_length chars

/-- A statement stays in the text. -/
theorem statement_le_length (chars : List Char) : statement chars ≤ chars.length :=
  repeated_le_length statementStep_le_length chars

/-- The statement goes on from where its trivia end. -/
theorem statement_eq_trivia_add (chars : List Char) :
    statement chars = trivia chars + statement (chars.drop (trivia chars)) := by
  refine repeated_induction
    (motive := fun chars n => statement chars = n + statement (chars.drop n))
    triviaStep_le_length (fun chars _ => by simp) ?_ chars
  intro chars n hpos ih
  have hstep := statementStep_of_triviaStep_pos hpos
  rw [statement, repeated_of_step_pos (hstep ▸ hpos) (statementStep_le_length chars), hstep]
  rw [statement, List.drop_drop] at ih
  rw [ih, Nat.add_assoc]

/-- The trivia at the front of a statement belong to it. -/
theorem trivia_le_statement (chars : List Char) : trivia chars ≤ statement chars := by
  rw [statement_eq_trivia_add chars]
  exact Nat.le_add_right _ _

/-- At the end of the text the statement is over. -/
@[simp] theorem statement_nil : statement [] = 0 := rfl

/-- At a line feed the statement is over. -/
@[simp] theorem statement_newline (chars : List Char) : statement ('\n' :: chars) = 0 := rfl

/-- A character that starts no continuation belongs to the statement alone. -/
theorem statement_cons {c : Char} (hc : c ≠ '\n') (hcont : continuation (c :: chars) = none) :
    statement (c :: chars) = statement chars + 1 := by
  have hstep : statementStep (c :: chars) = 1 := by simp [statementStep, hc, hcont]
  rw [statement, repeated_of_step_pos (by omega) (by simp [hstep]), hstep, Nat.add_comm]
  rfl

/-- A continuation belongs to the statement as a whole. -/
theorem statement_of_continuation (h : continuation chars = some n) :
    statement chars = n + statement (chars.drop n) := by
  have hstep : statementStep chars = n := by
    obtain ⟨gap, tail, rfl, -, rfl⟩ := continuation_eq_some h
    simp [statementStep, h]
  have := two_le_continuation h
  rw [statement, repeated_of_step_pos (by omega) (statementStep_le_length chars), hstep]
  rfl

/-- A statement goes on at any character that is no line feed. -/
theorem statement_pos {c : Char} (hc : c ≠ '\n') : 0 < statement (c :: chars) := by
  rcases hcont : continuation (c :: chars) with _ | k
  · rw [statement_cons hc hcont]
    omega
  · have := two_le_continuation hcont
    rw [statement_of_continuation hcont]
    omega

/-- Where a statement ends, the line or the text ends. -/
theorem atLineEnd_drop_statement (chars : List Char) :
    atLineEnd (chars.drop (statement chars)) := by
  have h : statementStep (chars.drop (statement chars)) = 0 :=
    step_drop_repeated statementStep_le_length chars
  rcases hrest : chars.drop (statement chars) with _ | ⟨c, rest⟩
  · rfl
  · rw [hrest] at h
    by_contra hc
    simp only [atLineEnd, beq_iff_eq] at hc
    rcases hcont : continuation (c :: rest) with _ | k
    · simp [statementStep, hc, hcont] at h
    · have := two_le_continuation hcont
      simp [statementStep, hc, hcont] at h
      omega

/-- Where the line ends, nothing is left of the statement. -/
theorem statement_of_atLineEnd (h : atLineEnd chars) : statement chars = 0 := by
  rcases chars with _ | ⟨c, rest⟩
  · rfl
  · obtain rfl : c = '\n' := by simpa [atLineEnd] using h
    rfl

/-- At the end of a line no trivia are left. -/
theorem trivia_of_atLineEnd (h : atLineEnd chars) : trivia chars = 0 := by
  have := trivia_le_statement chars
  rw [statement_of_atLineEnd h] at this
  omega

/-- Behind trivia there are no more trivia. -/
theorem trivia_drop_trivia (chars : List Char) : trivia (chars.drop (trivia chars)) = 0 :=
  repeated_of_step_zero (step_drop_repeated triviaStep_le_length chars)

/-- If only trivia are left of the statement, it ends where they do. -/
theorem statement_of_atStatementEnd (h : atStatementEnd chars) :
    statement chars = trivia chars := by
  rw [statement_eq_trivia_add, statement_of_atLineEnd h, Nat.add_zero]

/-! ### Places inside a statement -/

/-- Blanks before a line break are all that is left of a statement. -/
theorem statement_blanks (gap tail : List Char) (h : ∀ c ∈ gap, isBlank c) :
    statement (gap ++ '\n' :: tail) = gap.length := by
  induction gap with
  | nil => simp
  | cons c gap ih =>
      have hc := h c (by simp)
      have hne : c ≠ '\n' := by rintro rfl; exact absurd hc (by decide)
      have hcont : continuation (c :: (gap ++ '\n' :: tail)) = none := by
        rcases hk : continuation (c :: (gap ++ '\n' :: tail)) with _ | k
        · rfl
        · obtain ⟨_, _, heq, -, -⟩ := continuation_eq_some hk
          obtain ⟨rfl, -⟩ := List.cons.inj heq
          exact absurd hc (by decide)
      rw [List.cons_append, statement_cons hne hcont, ih fun c hc => h c (by simp [hc])]
      rfl

/-- Blanks are trivia, and more trivia may follow them. -/
theorem trivia_append (gap tail : List Char) (h : ∀ c ∈ gap, isBlank c) :
    trivia (gap ++ tail) = gap.length + trivia tail := by
  induction gap with
  | nil => simp
  | cons c gap ih =>
      have hstep : triviaStep (c :: (gap ++ tail)) = 1 := by
        simp [triviaStep, h c (by simp)]
      have ih' := ih fun c hc => h c (by simp [hc])
      rw [trivia] at ih'
      rw [List.cons_append, trivia, repeated_of_step_pos (by omega) (by simp [hstep]), hstep,
        List.drop_succ_cons, List.drop_zero, ih', List.length_cons]
      omega

/-- Blanks before a line feed are all the trivia there. -/
theorem trivia_blanks (gap tail : List Char) (h : ∀ c ∈ gap, isBlank c) :
    trivia (gap ++ '\n' :: tail) = gap.length := by
  rw [trivia_append gap _ h, trivia_of_atLineEnd rfl, Nat.add_zero]

/-- Past its backslash, a continuation is blanks and a line break. -/
theorem drop_continuation (h : continuation chars = some n) (hm : 0 < m) (hmn : m < n) :
    ∃ gap tail, chars.drop m = gap ++ '\n' :: tail ∧ (∀ c ∈ gap, isBlank c) ∧
      m + gap.length + 1 = n ∧ tail = chars.drop n := by
  obtain ⟨gap, tail, rfl, hgap, rfl⟩ := continuation_eq_some h
  obtain ⟨k, rfl⟩ : ∃ k, m = k + 1 := ⟨m - 1, by omega⟩
  refine ⟨gap.drop k, tail, ?_, fun c hc => hgap c (List.mem_of_mem_drop hc), ?_, ?_⟩
  · rw [List.drop_succ_cons, List.drop_append_of_le_length (by omega)]
  · rw [List.length_drop]
    omega
  · rw [List.drop_succ_cons, List.drop_append]
    simp

/-- The place after `m` characters stands inside a line continuation that starts after `j`. -/
def Torn (chars : List Char) (j m n : Nat) : Prop :=
  continuation (chars.drop j) = some n ∧ j < m ∧ m < j + n

/-- A place inside a statement ends with the statement, or stands inside a continuation of
it. -/
theorem statement_drop_or_torn (h : m ≤ statement chars) :
    m + statement (chars.drop m) = statement chars ∨
      ∃ j n, Torn chars j m n ∧ j + n ≤ statement chars ∧
        j + statement (chars.drop j) = statement chars := by
  induction hlen : chars.length using Nat.strong_induction_on generalizing chars m with
  | _ length ih =>
      rcases Nat.eq_zero_or_pos m with rfl | hm
      · exact .inl (by simp)
      · rcases chars with _ | ⟨c, rest⟩
        · simp at h
          omega
        · have hc : c ≠ '\n' := by
            rintro rfl
            simp at h
            omega
          rcases hcont : continuation (c :: rest) with _ | k
          · rw [statement_cons hc hcont] at h ⊢
            obtain ⟨m, rfl⟩ : ∃ k, m = k + 1 := ⟨m - 1, by omega⟩
            rw [List.drop_succ_cons]
            rcases ih rest.length (by simp [← hlen]) (Nat.le_of_succ_le_succ h) rfl with
              heq | ⟨j, n, ⟨hj, hjm, hmj⟩, hle, heq⟩
            · exact .inl (by omega)
            · refine .inr ⟨j + 1, n, ⟨by simpa using hj, by omega, by omega⟩, by omega, ?_⟩
              rw [List.drop_succ_cons]
              omega
          · have hk := two_le_continuation hcont
            have hkl := continuation_le_length hcont
            have hst := statement_of_continuation hcont
            rcases Nat.lt_or_ge m k with hlt | hge
            · exact .inr ⟨0, k, ⟨by simpa using hcont, hm, by omega⟩, by omega, by simp⟩
            · rw [hst] at h ⊢
              rcases ih ((c :: rest).drop k).length (by rw [List.length_drop]; omega)
                  (show m - k ≤ _ by omega) rfl with heq | ⟨j, n, ⟨hj, hjm, hmj⟩, hle, heq⟩
              · rw [List.drop_drop, Nat.add_sub_cancel' hge] at heq
                exact .inl (by omega)
              · rw [List.drop_drop] at hj heq
                exact .inr ⟨k + j, n, ⟨hj, by omega, by omega⟩, by omega, by omega⟩

/-- A place inside a statement does not reach beyond it. -/
theorem add_statement_drop_le (h : m ≤ statement chars) :
    m + statement (chars.drop m) ≤ statement chars := by
  rcases statement_drop_or_torn h with heq | ⟨j, n, ⟨hcont, hjm, hmj⟩, hle, -⟩
  · exact heq.le
  · obtain ⟨k, rfl⟩ := Nat.exists_eq_add_of_lt hjm
    obtain ⟨gap, tail, hdrop, hgap, hlen, -⟩ :=
      drop_continuation hcont (m := k + 1) (by omega) (by omega)
    rw [List.drop_drop, ← Nat.add_assoc] at hdrop
    rw [hdrop, statement_blanks gap tail hgap]
    omega

/-- What stands on one line belongs to the statement. -/
theorem Inline.le_statement (h : Inline chars n) : n ≤ statement chars := by
  induction n generalizing chars with
  | zero => exact Nat.zero_le _
  | succ n ih =>
      rcases chars with _ | ⟨c, chars⟩
      · simpa using h.le_length
      · have hc : c ≠ '\n' := by
          rintro rfl
          exact h.newline_notMem (by simp)
        rcases hcont : continuation (c :: chars) with _ | k
        · rw [statement_cons hc hcont]
          exact Nat.succ_le_succ (ih h.of_cons)
        · -- the line break of the continuation is not among the characters
          obtain ⟨gap, tail, heq, -, rfl⟩ := continuation_eq_some hcont
          rw [statement_of_continuation hcont]
          by_contra hlt
          refine h.newline_notMem ?_
          have hlong : gap.length + 2 ≤ n + 1 := by omega
          refine List.take_subset_take_left _ hlong ?_
          rw [heq]
          simp [List.take_append]

end Mcfunction.Scan
