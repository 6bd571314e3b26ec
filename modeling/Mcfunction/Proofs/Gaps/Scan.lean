import Mcfunction.Proofs.Spans.Text
import Mcfunction.Proofs.Written.Scan

/-!
# Recognizers before a Gap

A gap of blanks and line continuations ends every token in front of it. Most recognizers find in a
text that a gap follows what they find in the text alone. Trivia go on through the gap. A quoted
string or an interpolation may reach beyond the gap; one that is closed is the same whatever
follows it.

## Main results

* `Separates.trivia_append`: trivia in front of a gap.
* `Separates.fragment_append`, `Separates.wholeNumber_append`, …: tokens in front of a gap.
* `quoted_take_append`, `interpolation_take_append`: what is closed.
-/

namespace Mcfunction

namespace Scan

variable {gap after chars tail tail' : List Char} {m n : Nat} {x : Char}

/-! ### Gaps -/

/-- `gap` is not empty and holds blanks and line continuations only, and all such up to `after`,
with which the statement goes on. -/
structure Separates (gap after : List Char) : Prop where
  /-- Blanks and line continuations. -/
  filler : Filler false gap
  /-- There are some. -/
  ne_nil : gap ≠ []
  /-- No more of them follow. -/
  stops : triviaStep after = 0
  /-- Nor does the line end there. -/
  goesOn : atLineEnd after = false

/-- The characters that gaps start with. -/
def isGapChar (c : Char) : Bool :=
  isBlank c || c == '\\'

/-- The characters that gaps start with, one by one. -/
theorem isGapChar_iff : isGapChar x ↔ x = ' ' ∨ x = '\t' ∨ x = '\r' ∨ x = '\\' := by
  simp [isGapChar, isBlank, or_assoc]

/-- A class without blanks and backslashes holds no character that a gap starts with. -/
theorem isGapChar_not_mem {p : Char → Bool} (h : isGapChar x)
    (hp : [' ', '\t', '\r', '\\'].any p = false) : p x = false := by
  refine Bool.eq_false_iff.mpr (List.any_eq_false.mp hp x ?_)
  simpa using isGapChar_iff.mp h

/-- A gap does not start with any other character. -/
theorem isGapChar_ne {y : Char} (h : isGapChar x) (hy : isGapChar y = false) : x ≠ y := by
  rintro rfl
  rw [h] at hy
  cases hy

/-- Filler starts with a character that gaps start with. -/
theorem filler_head (h : Filler false gap) (hne : gap ≠ []) :
    ∃ x rest, gap = x :: rest ∧ isGapChar x := by
  cases h with
  | nil => exact absurd rfl hne
  | @blank x chars hx _ => exact ⟨x, chars, rfl, by simp [isGapChar, hx]⟩
  | lineBreak hbreaks => cases hbreaks
  | continuation => exact ⟨'\\', _, rfl, rfl⟩

/-- After filler the line does not end if it does not end after what follows. -/
theorem filler_append_ne_newline (h : Filler false gap) (hline : atLineEnd after = false)
    (rest : List Char) : gap ++ after ≠ '\n' :: rest := by
  intro heq
  by_cases hne : gap = []
  · subst hne
    rw [List.nil_append] at heq
    rw [heq] at hline
    cases hline
  · obtain ⟨x, chars, rfl, hx⟩ := filler_head h hne
    exact isGapChar_ne hx (by decide) (List.cons.inj heq).1

/-- A backslash and blanks right before filler are no line continuation. -/
theorem filler_append_drop (h : Filler false gap) (hstops : triviaStep after = 0)
    (hline : atLineEnd after = false) :
    let left := (gap ++ after).drop (run (fun c => c == ' ' || c == '\t') (gap ++ after))
    (∀ rest, left ≠ '\n' :: rest) ∧ ∀ rest, left ≠ '\r' :: '\n' :: rest := by
  induction h with
  | nil =>
      rcases after with _ | ⟨y, after⟩
      · simp
      · have hblank : isBlank y = false := by
          by_contra hblank
          simp [triviaStep, show isBlank y by simpa using hblank] at hstops
        have hspace : (y == ' ' || y == '\t') = false := by
          simp only [isBlank, Bool.or_eq_false_iff] at hblank ⊢
          exact hblank.1
        have hreturn : y ≠ '\r' := by
          rintro rfl
          cases hblank
        have hnewline : y ≠ '\n' := by simpa [atLineEnd] using hline
        simp [run_cons, hspace, hreturn, hnewline]
  | @blank y chars hy hchars ih =>
      rw [List.cons_append, run_cons]
      by_cases hspace : (y == ' ' || y == '\t') = true
      · simp only [hspace, if_true, List.drop_succ_cons]
        exact ih
      · have hreturn : y = '\r' := by
          simp only [isBlank, Bool.or_eq_true, Bool.or_eq_true] at hy hspace
          simpa using hy.resolve_left hspace
        subst hreturn
        refine ⟨by simp, fun rest heq => ?_⟩
        simp only [Char.reduceBEq, Bool.or_false, Bool.false_eq_true, if_false, List.drop_zero,
          List.cons.injEq, true_and] at heq
        exact filler_append_ne_newline hchars hline rest heq
  | lineBreak hbreaks => cases hbreaks
  | continuation => simp [run_cons]

/-- A line continuation is trivia, whatever follows it. -/
theorem triviaStep_continuation {blanks line : List Char}
    (hblanks : ∀ x ∈ blanks, x = ' ' ∨ x = '\t')
    (hline : line = ['\n'] ∨ line = ['\r', '\n']) (rest : List Char) :
    triviaStep ('\\' :: blanks ++ line ++ rest) = ('\\' :: blanks ++ line).length := by
  have hrun : run (fun c => c == ' ' || c == '\t') (blanks ++ (line ++ rest)) = blanks.length := by
    rcases hline with rfl | rfl
    all_goals
      rw [List.cons_append, run_append_cons (by decide), run_of_forall (by simpa using hblanks)]
  have hdrop : (blanks ++ (line ++ rest)).drop blanks.length = line ++ rest := List.drop_left
  simp only [triviaStep, List.cons_append, List.append_assoc, continuation, hrun, hdrop]
  rcases hline with rfl | rfl
  · simp [isBlank]
  · simp [isBlank]

/-- In front of what is no trivia all of a gap is trivia. -/
theorem trivia_filler_append (h : Filler false gap) (hstops : triviaStep after = 0) :
    trivia (gap ++ after) = gap.length := by
  induction h with
  | nil => exact repeated_of_step_zero hstops
  | @blank y chars hy _ ih =>
      have happend := trivia_append [y] (chars ++ after) (by simpa using hy)
      rw [ih] at happend
      simpa [Nat.add_comm] using happend
  | lineBreak hbreaks => cases hbreaks
  | @continuation blanks line chars hblanks hline _ ih =>
      have hstep := triviaStep_continuation hblanks hline (chars ++ after)
      have hpos : 0 < ('\\' :: blanks ++ line).length := by simp
      rw [List.append_assoc, trivia, repeated_of_step_pos (by omega)
        (triviaStep_le_length _), hstep, List.drop_left]
      change _ + trivia (chars ++ after) = _
      rw [ih]
      exact List.length_append.symm

namespace Separates

variable (h : Separates gap after)

include h

/-- A gap has a first character. -/
theorem exists_cons : ∃ x rest, gap ++ after = x :: rest ∧ isGapChar x := by
  obtain ⟨x, rest, rfl, hx⟩ := filler_head h.filler h.ne_nil
  exact ⟨x, rest ++ after, rfl, hx⟩

/-- The trivia at a gap are the gap. -/
theorem trivia_eq : trivia (gap ++ after) = gap.length :=
  trivia_filler_append h.filler h.stops

/-- A gap is not empty. -/
theorem length_pos : 0 < gap.length :=
  List.length_pos_iff.mpr h.ne_nil

/-- A backslash before the gap starts no continuation that reaches into the gap. -/
theorem continuation_append (c : Char) (chars : List Char) :
    continuation (c :: chars ++ (gap ++ after)) = continuation (c :: chars) := by
  by_cases hc : c = '\\'
  · subst hc
    obtain ⟨hnewline, hreturn⟩ := filler_append_drop h.filler h.stops h.goesOn
    have hhead := filler_append_ne_newline h.filler h.goesOn
    generalize gap ++ after = tail at hnewline hreturn hhead ⊢
    rcases hdrop : chars.drop (run (fun c => c == ' ' || c == '\t') chars) with _ | ⟨y, rest⟩
    · have hall : ∀ c ∈ chars, (c == ' ' || c == '\t') = true := by
        rw [← List.takeWhile_eq_self_iff]
        refine List.Sublist.eq_of_length_le (List.takeWhile_sublist _) ?_
        exact List.drop_eq_nil_iff.mp hdrop
      have hrun : run (fun c => c == ' ' || c == '\t') (chars ++ tail) =
          chars.length + run (fun c => c == ' ' || c == '\t') tail := by
        rw [run, List.takeWhile_append_of_pos hall, List.length_append, run]
      simp only [List.cons_append, continuation, hrun, hdrop, List.drop_length_add_append]
    · have hy : (y == ' ' || y == '\t') = false := run_stop hdrop
      have hrun : run (fun c => c == ' ' || c == '\t') (chars ++ tail) =
          run (fun c => c == ' ' || c == '\t') chars := by
        have hsplit := List.take_append_drop (run (fun c => c == ' ' || c == '\t') chars) chars
        rw [hdrop] at hsplit
        rw [← hsplit, List.append_assoc, List.cons_append, run_append_cons hy,
          run_append_cons hy]
      simp only [List.cons_append, continuation, hrun, hdrop,
        List.drop_append_of_le_length (run_le_length _ _)]
      by_cases hnl : y = '\n'
      · simp [hnl]
      · by_cases hcr : y = '\r'
        · subst hcr
          rcases rest with _ | ⟨z, rest⟩
          · rcases tail with _ | ⟨z, tail⟩
            · rfl
            · have hz : z ≠ '\n' := by
                rintro rfl
                exact hhead tail rfl
              simp [hz]
          · by_cases hz : z = '\n' <;> simp [hz]
        · simp [hnl, hcr]
  · simp [continuation, hc]

/-- One step through trivia in front of a gap does not depend on the gap. -/
theorem triviaStep_append (c : Char) (chars : List Char) :
    triviaStep (c :: chars ++ (gap ++ after)) = triviaStep (c :: chars) := by
  have hcont := h.continuation_append c chars
  rw [List.cons_append] at hcont
  simp only [triviaStep, List.cons_append, hcont]

/-- One step through a statement in front of a gap does not depend on the gap. -/
theorem statementStep_append (c : Char) (chars : List Char) :
    statementStep (c :: chars ++ (gap ++ after)) = statementStep (c :: chars) := by
  have hcont := h.continuation_append c chars
  rw [List.cons_append] at hcont
  simp only [statementStep, List.cons_append, hcont]

end Separates

/-! ### Repetitions -/

/-- A step that finds in front of the tail what it finds in the text alone is repeated as often, but
for what it takes of the tail when it has taken the whole text. -/
theorem repeated_append_tail {step : List Char → Nat} (hle : ∀ chars, step chars ≤ chars.length)
    (hstep : ∀ c chars, step (c :: chars ++ tail) = step (c :: chars)) (chars : List Char) :
    repeated step 0 (chars ++ tail) =
      if repeated step 0 chars = chars.length then chars.length + repeated step 0 tail
      else repeated step 0 chars := by
  refine repeated_induction
    (motive := fun chars n => repeated step 0 (chars ++ tail) =
      if n = chars.length then chars.length + repeated step 0 tail else n) hle ?_ ?_ chars
  · intro chars hzero
    rcases chars with _ | ⟨c, chars⟩
    · simp
    · rw [repeated_of_step_zero ((hstep c chars).trans hzero), if_neg (by simp)]
  · intro chars n hpos ih
    rcases chars with _ | ⟨c, chars⟩
    · have := hle []
      rw [List.length_nil] at this
      omega
    · have hlen := hle (c :: chars)
      have heq := hstep c chars
      rw [repeated_of_step_pos (by omega) (heq ▸ hlen.trans (by simp)), heq,
        List.drop_append_of_le_length hlen, ih, List.length_drop]
      split_ifs <;> omega

/-- A step that takes nothing of the tail stops in front of it. -/
theorem repeated_append_of_stop {step : List Char → Nat} (hle : ∀ chars, step chars ≤ chars.length)
    (hstep : ∀ c chars, step (c :: chars ++ tail) = step (c :: chars)) (htail : step tail = 0)
    (chars : List Char) : repeated step 0 (chars ++ tail) = repeated step 0 chars := by
  rw [repeated_append_tail hle hstep, repeated_of_step_zero htail]
  split_ifs with heq
  · exact heq.symm
  · rfl

namespace Separates

variable (h : Separates gap after)

include h

/-- Trivia in front of a gap take it as well. -/
theorem trivia_append (chars : List Char) :
    trivia (chars ++ (gap ++ after)) =
      if trivia chars = chars.length then chars.length + gap.length else trivia chars := by
  have happend := repeated_append_tail triviaStep_le_length h.triviaStep_append chars
  rw [trivia, happend]
  change (if trivia chars = chars.length then chars.length + trivia (gap ++ after) else _) = _
  rw [h.trivia_eq]
  rfl

/-! ### Tokens -/

/-- A run of a class without blanks and backslashes ends at the gap. -/
theorem run_append {p : Char → Bool} (hp : [' ', '\t', '\r', '\\'].any p = false)
    (chars : List Char) : run p (chars ++ (gap ++ after)) = run p chars := by
  obtain ⟨x, rest, htail, hx⟩ := h.exists_cons
  rw [htail, run_append_cons (isGapChar_not_mem hx hp)]

/-- So does a run of at least one character. -/
theorem run?_append {p : Char → Bool} (hp : [' ', '\t', '\r', '\\'].any p = false)
    (chars : List Char) : run? p (chars ++ (gap ++ after)) = run? p chars := by
  rw [run?, h.run_append hp, run?]

/-- Words end at the gap. -/
theorem word_append (chars : List Char) : word (chars ++ (gap ++ after)) = word chars :=
  h.run?_append (by decide) chars

/-- One step of a path segment in front of a gap does not depend on the gap. -/
theorem segmentStep_append (c : Char) (chars : List Char) :
    segmentStep (c :: chars ++ (gap ++ after)) = segmentStep (c :: chars) := by
  by_cases hc : c = '/'
  · subst hc
    simp only [List.cons_append, segmentStep, h.run_append (p := isPathChar) (by decide)]
  · simp [segmentStep, hc]

/-- No segment of a path starts with a gap. -/
theorem segmentStep_tail : segmentStep (gap ++ after) = 0 := by
  obtain ⟨x, rest, htail, hx⟩ := h.exists_cons
  rw [htail]
  simp [segmentStep, isGapChar_ne hx (y := '/') (by decide)]

/-- Paths end at the gap. -/
theorem path_append (chars : List Char) : path (chars ++ (gap ++ after)) = path chars := by
  rw [path, path, h.run?_append (by decide)]
  rcases hfirst : run? isPathChar chars with _ | first
  · rfl
  · have hlen := (inline_run? (by decide) hfirst).le_length
    simp only [List.drop_append_of_le_length hlen,
      repeated_append_of_stop (fun chars => (inline_segmentStep chars).le_length)
        h.segmentStep_append h.segmentStep_tail]

/-- Names of commands end at the gap. -/
theorem commandName_append (chars : List Char) :
    commandName (chars ++ (gap ++ after)) = commandName chars := by
  rcases chars with _ | ⟨c, chars⟩
  · obtain ⟨x, rest, htail, hx⟩ := h.exists_cons
    simp [htail, commandName, isGapChar_not_mem (p := Char.isLower) hx (by decide)]
  · simp only [List.cons_append, commandName, h.run_append (p := isNameChar) (by decide)]

/-- Fake players end at the gap. -/
theorem fakePlayer_append (chars : List Char) :
    fakePlayer (chars ++ (gap ++ after)) = fakePlayer chars := by
  rcases chars with _ | ⟨c, chars⟩
  · obtain ⟨x, rest, htail, hx⟩ := h.exists_cons
    simp [htail, fakePlayer, isGapChar_ne hx (y := '#') (by decide)]
  · by_cases hc : c = '#'
    · subst hc
      simp only [List.cons_append, fakePlayer, h.run?_append (p := isPathChar) (by decide)]
    · simp [fakePlayer, hc]

/-- Numbers end at the gap. -/
theorem suffixedNumber_append (chars : List Char) :
    suffixedNumber (chars ++ (gap ++ after)) = suffixedNumber chars := by
  obtain ⟨x, rest, htail, hx⟩ := h.exists_cons
  rw [htail]
  exact suffixedNumber_append_cons (isGapChar_not_mem hx (by decide))
    (isGapChar_not_mem hx (by decide))

/-- Whether a word is a whole number does not depend on the gap. -/
theorem wholeNumber_append (chars : List Char) :
    wholeNumber (chars ++ (gap ++ after)) = wholeNumber chars := by
  rw [wholeNumber, h.suffixedNumber_append, h.word_append, wholeNumber]

/-- Whether a character that starts no gap comes next. -/
theorem head?_beq (hx : isGapChar x = false) (chars : List Char) :
    ((chars ++ (gap ++ after)).head? == some x) = (chars.head? == some x) := by
  rcases chars with _ | ⟨c, chars⟩
  · obtain ⟨y, rest, htail, hy⟩ := h.exists_cons
    simp [htail, isGapChar_ne hy hx]
  · rfl

/-- Whether a character of a class without blanks comes first does not depend on the gap. -/
theorem head?_any {p : Char → Bool} (hp : [' ', '\t', '\r', '\\'].any p = false)
    (chars : List Char) : (chars ++ (gap ++ after)).head?.any p = chars.head?.any p := by
  rcases chars with _ | ⟨c, chars⟩
  · obtain ⟨x, rest, htail, hx⟩ := h.exists_cons
    simp [htail, isGapChar_not_mem hx hp]
  · rfl

/-- The namespace of a resource location ends at the gap. -/
theorem resourceNamespace_append (chars : List Char) :
    resourceNamespace (chars ++ (gap ++ after)) = resourceNamespace chars := by
  rw [resourceNamespace, h.word_append, h.suffixedNumber_append, resourceNamespace]
  rcases hword : word chars with _ | count
  · rfl
  · simp only [List.drop_append_of_le_length (inline_word hword).le_length,
      h.head?_beq (x := ':') (by decide)]

/-- Nor does the path behind its colon go on. -/
theorem path_drop_append (hspace : resourceNamespace chars = some n) :
    path ((chars ++ (gap ++ after)).drop (n + 1)) = path (chars.drop (n + 1)) := by
  obtain ⟨-, rest, hcolon⟩ := resourceNamespace_eq_some hspace
  have hlen : n + 1 ≤ chars.length := by
    by_contra hlt
    rw [List.drop_eq_nil_of_le (by omega)] at hcolon
    cases hcolon
  rw [List.drop_append_of_le_length hlen, h.path_append]

/-- A coordinate ends at the gap. -/
theorem coordinate_append (chars : List Char) :
    coordinate (chars ++ (gap ++ after)) = coordinate chars := by
  rcases chars with _ | ⟨c, chars⟩
  · obtain ⟨x, rest, htail, hx⟩ := h.exists_cons
    have hnumber := h.suffixedNumber_append []
    rw [List.nil_append, htail] at hnumber
    simp [htail, coordinate, isGapChar_ne hx (y := '~') (by decide),
      isGapChar_ne hx (y := '^') (by decide), hnumber]
    rfl
  · have hsign := (inline_minus chars).le_length
    have hnumber := h.suffixedNumber_append (c :: chars)
    obtain ⟨x, rest, htail, hx⟩ := h.exists_cons
    have hminus : minus (chars ++ (gap ++ after)) = minus chars := by
      rw [htail]
      exact minus_append_cons (isGapChar_ne hx (by decide))
    have hdecimal : ∀ chars, decimal (chars ++ (gap ++ after)) = decimal chars := by
      intro chars
      rw [htail]
      exact decimal_append_cons (isGapChar_not_mem hx (by decide)) (isGapChar_ne hx (by decide))
    rw [List.cons_append] at hnumber
    simp only [List.cons_append, coordinate, hminus, List.drop_append_of_le_length hsign, hdecimal,
      hnumber]

/-! ### Interpolated text -/

/-- Whether a quoted string starts does not depend on the gap. -/
theorem startsQuoted_append (chars : List Char) :
    startsQuoted (chars ++ (gap ++ after)) = startsQuoted chars := by
  rcases chars with _ | ⟨c, chars⟩
  · obtain ⟨x, rest, htail, hx⟩ := h.exists_cons
    simp [htail, startsQuoted, isGapChar_ne hx (y := '"') (by decide),
      isGapChar_ne hx (y := '\'') (by decide)]
  · by_cases hdouble : c = '"' <;> by_cases hsingle : c = '\'' <;>
      simp [startsQuoted, hdouble, hsingle]

/-- Whether an interpolation starts does not depend on the gap. -/
theorem startsInterpolation_append (chars : List Char) :
    startsInterpolation (chars ++ (gap ++ after)) = startsInterpolation chars := by
  obtain ⟨x, rest, htail, hx⟩ := h.exists_cons
  rw [htail]
  rcases chars with _ | ⟨c, _ | ⟨d, chars⟩⟩
  · simp [startsInterpolation, isGapChar_ne hx (y := '$') (by decide)]
  · simp [startsInterpolation, isGapChar_ne hx (y := '(') (by decide)]
  · by_cases hc : c = '$' <;> by_cases hd : d = '(' <;> simp [startsInterpolation, hc, hd]

/-- One step of a fragment in front of a gap does not depend on the gap. -/
theorem fragmentStep_append {inKey : Bool} (c : Char) (chars : List Char) :
    fragmentStep inKey (c :: chars ++ (gap ++ after)) = fragmentStep inKey (c :: chars) := by
  have hcont := h.continuation_append c chars
  have hstart := h.startsInterpolation_append (c :: chars)
  rw [List.cons_append] at hcont hstart
  simp only [fragmentStep, List.cons_append, hcont, hstart]

/-- No fragment starts with a gap. -/
theorem fragmentStep_tail {inKey : Bool} : fragmentStep inKey (gap ++ after) = 0 := by
  have hpos : 0 < triviaStep (gap ++ after) := by
    by_contra hzero
    have htrivia := h.trivia_eq
    rw [trivia, repeated_of_step_zero (by omega)] at htrivia
    have := h.length_pos
    omega
  obtain ⟨x, rest, htail, hx⟩ := h.exists_cons
  rw [htail] at hpos ⊢
  rcases isGapChar_iff.mp hx with rfl | rfl | rfl | rfl
  · rfl
  · rfl
  · rfl
  · rcases hcont : continuation ('\\' :: rest) with _ | k
    · simp [triviaStep, isBlank, hcont] at hpos
    · simp [fragmentStep, hcont]

/-- Fragments end at the gap. -/
theorem fragment_append {inKey : Bool} (chars : List Char) :
    fragment inKey (chars ++ (gap ++ after)) = fragment inKey chars := by
  rw [fragment, repeated_append_of_stop (fun chars => (inline_fragmentStep inKey chars).le_length)
    h.fragmentStep_append h.fragmentStep_tail, fragment]

/-- Outside quotes, the start of interpolated text does not depend on what follows the gap. -/
theorem startsInterpolated_append {inKey : Bool} (hquoted : startsQuoted chars = false) :
    startsInterpolated inKey (chars ++ (gap ++ after)) = startsInterpolated inKey chars := by
  have hlead : [' ', '\t', '\r', '\\'].any (isLeadChar inKey) = false := by
    cases inKey <;> decide
  rw [startsInterpolated, startsInterpolated, h.startsQuoted_append, hquoted,
    h.run_append hlead, List.drop_append_of_le_length (run_le_length _ _),
    h.startsInterpolation_append]
  simp only [Bool.false_eq_true, if_false]

end Separates

/-! ### Closed tokens -/

/-- A name in parentheses behind a dollar sign is an interpolation, whatever follows. -/
theorem interpolation_of_close {name : List Char} (hname : ∀ c ∈ name, c ≠ ')' ∧ c ≠ '\n')
    (rest : List Char) :
    interpolation ('$' :: '(' :: (name ++ ')' :: rest)) = .ok (name.length + 3) := by
  have hrun : run (fun c => c != ')' && c != '\n') (name ++ ')' :: rest) = name.length := by
    rw [run_append_cons (by decide), run_of_forall (by simpa using hname)]
  have hclose : (name ++ ')' :: rest).drop name.length = ')' :: rest := List.drop_left
  unfold interpolation
  simp only [openerCount_dollar, List.drop_succ_cons, List.drop_zero]
  split
  · rw [hrun]
    exact congrArg Except.ok (by omega)
  · rename_i hopen
    rw [hrun] at hopen
    exact absurd hclose (hopen rest)

/-- An interpolation is over with its parenthesis, whatever follows it. -/
theorem interpolation_take_append (hstart : startsInterpolation chars)
    (h : interpolation chars = .ok n) (tail : List Char) :
    interpolation (chars.take n ++ tail) = .ok n := by
  obtain ⟨body, rfl⟩ := startsInterpolation_iff.mp hstart
  have hinside := take_run (fun c => c != ')' && c != '\n') body
  have hname : ∀ c ∈ body.takeWhile (fun c => c != ')' && c != '\n'), c ≠ ')' ∧ c ≠ '\n' := by
    intro c hc
    simpa using List.mem_takeWhile_imp (p := fun c => c != ')' && c != '\n') hc
  unfold interpolation at h
  simp only [openerCount_dollar, List.drop_succ_cons, List.drop_zero] at h
  split at h
  · rename_i rest hclose
    have hn := Except.ok.inj h
    have htake : ('$' :: '(' :: body).take n =
        '$' :: '(' :: (body.takeWhile (fun c => c != ')' && c != '\n') ++ [')']) := by
      rw [← hn, Nat.add_assoc, Nat.add_comm 2, List.take_succ_cons, List.take_succ_cons,
        List.take_add, hclose, hinside]
      rfl
    rw [htake]
    have hcount := interpolation_of_close hname tail
    rw [← hn, run, Nat.add_assoc, Nat.add_comm 2]
    simpa using hcount
  · cases h

/-- So is a quoted string with its closing quote. -/
theorem quotedFrom_take_append {closes : Char → Bool} {before pending : Nat} {interpolated : Bool}
    {q : Quoted} (hdollar : closes '$' = false)
    (h : quotedFrom closes before interpolated pending chars = .ok q) :
    ∃ k, q.before = before + k ∧ pending ≤ k ∧ k < chars.length ∧
      ∀ tail, quotedFrom closes before interpolated pending (chars.take (k + 1) ++ tail) =
        .ok q := by
  fun_induction quotedFrom closes before interpolated pending chars with
  | case1 | case3 | case4 | case5 | case6 | case8 => cases h
  | case2 before interpolated pending c chars ih =>
      obtain ⟨k, hbefore, hpending, hlen, htake⟩ := ih h
      exact ⟨k + 1, by omega, by omega, by simpa using hlen, htake⟩
  | case7 before interpolated c chars hne hslash hnil hline hreturn ih =>
      obtain ⟨k, hbefore, hpending, hlen, htake⟩ := ih h
      obtain rfl : c = '\\' := by simpa using hslash
      obtain ⟨k, rfl⟩ : ∃ j, k = j + 1 := ⟨k - 1, by omega⟩
      obtain ⟨x, chars, rfl⟩ := List.exists_cons_of_ne_nil hnil
      obtain ⟨y, chars, rfl⟩ := List.exists_cons_of_length_pos (l := chars) (by simp at hlen; omega)
      refine ⟨k + 2, by omega, Nat.zero_le _, by simpa using hlen, fun tail => ?_⟩
      refine (quotedFrom_escape (by simp) (fun rest heq => ?_) fun rest heq => ?_).trans
        (htake tail)
      · exact hline (y :: chars) (by rw [(List.cons.inj heq).1])
      · obtain ⟨rfl, hnext⟩ := List.cons.inj heq
        obtain ⟨rfl, -⟩ := List.cons.inj hnext
        exact hreturn chars rfl
  | case9 before interpolated c chars hne hslash hstart count hcount ih =>
      obtain ⟨k, hbefore, hpending, hlen, htake⟩ := ih h
      have hpos := (inline_interpolation hstart hcount).1
      refine ⟨k + 1, by omega, Nat.zero_le _, by simpa using hlen, fun tail => ?_⟩
      have hinner := interpolation_take_append hstart hcount
        (((c :: chars).take (k + 2)).drop count ++ tail)
      have hmin : (c :: chars).take count = ((c :: chars).take (k + 2)).take count := by
        rw [List.take_take, Nat.min_eq_left (by omega)]
      have hsplit : (c :: chars).take count ++ (((c :: chars).take (k + 2)).drop count ++ tail) =
          c :: (chars.take (k + 1) ++ tail) := by
        rw [← List.append_assoc, hmin, List.take_append_drop]
        rfl
      rw [hsplit] at hinner
      have hstart' : startsInterpolation (c :: (chars.take (k + 1) ++ tail)) := by
        obtain ⟨body, heq⟩ := startsInterpolation_iff.mp hstart
        obtain ⟨rfl, rfl⟩ := List.cons.inj heq
        rfl
      simp [quotedFrom, hne, hslash, hstart', hinner, htake]
  | case10 before interpolated c chars hne hslash hstart hcloses =>
      cases h
      refine ⟨0, rfl, Nat.zero_le _, Nat.succ_pos _, fun tail => ?_⟩
      have hc : c ≠ '$' := by
        rintro rfl
        rw [hdollar] at hcloses
        cases hcloses
      simp [quotedFrom, hne, hslash, hcloses, startsInterpolation, hc]
  | case11 before interpolated c chars hne hslash hstart hcloses ih =>
      obtain ⟨k, hbefore, hpending, hlen, htake⟩ := ih h
      obtain ⟨y, chars, rfl⟩ := List.exists_cons_of_length_pos (l := chars) (by omega)
      refine ⟨k + 1, by omega, Nat.zero_le _, by simpa using hlen, fun tail => ?_⟩
      have hinner := htake tail
      have hstart' : startsInterpolation (c :: ((y :: chars).take (k + 1) ++ tail)) = false := by
        by_cases hc : c = '$' <;> by_cases hy : y = '(' <;>
          simp_all [startsInterpolation]
      rw [List.take_succ_cons, List.cons_append]
      generalize (y :: chars).take (k + 1) ++ tail = rest at hinner hstart' ⊢
      simp [quotedFrom, hne, hslash, hstart', hcloses, hinner]

/-- A quoted string that is closed is the same whatever follows. -/
theorem quoted_take_append {q : Quoted} (hstart : startsQuoted chars) (h : quoted chars = .ok q)
    (tail : List Char) : quoted (chars.take q.count ++ tail) = .ok q := by
  have hbody : ∀ {quote body}, quote ≠ '$' → quoted (quote :: body) = .ok q →
      quoted ((quote :: body).take q.count ++ tail) = .ok q := by
    intro quote body hquote h
    obtain ⟨k, hbefore, -, -, htake⟩ :=
      quotedFrom_take_append (by simpa using hquote.symm) h
    rw [Quoted.count, hbefore, Nat.add_comm 1, List.take_succ_cons]
    exact htake tail
  obtain ⟨body, rfl | rfl⟩ := startsQuoted_iff.mp hstart
  · exact hbody (by decide) h
  · exact hbody (by decide) h

end Scan

end Mcfunction
