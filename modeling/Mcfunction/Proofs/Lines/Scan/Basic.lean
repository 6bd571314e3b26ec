import Mcfunction.Proofs.Scan.Token

/-!
# Recognizers at the End of a Line

No recognizer looks past the line break that ends a statement, and a line break counts for
each of them as the end of the text does. So what a recognizer finds in a text it also finds
if a line break and more lines follow, unless the text ends in a backslash and blanks: then
the line break completes a line continuation.

## Main results

* `endsOpen_iff`: which texts a line break would join to the next line.
* `repeated_append`: a repetition stops at the end of a line as at the end of the text.
* `statement_append`, `trivia_append_tail`: statements and trivia are the same in a longer text.
-/

namespace Mcfunction.Scan

/-- Whether a line break after the text makes a line continuation of it: a backslash, then
spaces and tabs, and at most a carriage return. -/
def opensContinuation : List Char → Bool
  | '\\' :: chars =>
    let gap := chars.drop (run (fun c => c == ' ' || c == '\t') chars)
    gap == [] || gap == ['\r']
  | _ => false

/-- Whether a line break after the text becomes part of a line continuation. -/
def endsOpen : List Char → Bool
  | [] => false
  | c :: chars => opensContinuation (c :: chars) || endsOpen chars

/-- What may follow a text without being joined to its last line: nothing, or a line break that
ends the line. -/
inductive Ends (chars : List Char) : List Char → Prop
  /-- Nothing follows. -/
  | nil : Ends chars []
  /-- A line break follows. -/
  | newline {rest} : endsOpen chars = false → Ends chars ('\n' :: rest)

variable {chars tail : List Char} {m n : Nat} {p : Char → Bool}

/-- A continuation is left open by a backslash, blanks and at most one return at the end of the
text. -/
theorem opensContinuation_iff : opensContinuation chars ↔
    ∃ gap, (∀ c ∈ gap, c = ' ' ∨ c = '\t') ∧
      (chars = '\\' :: gap ∨ chars = '\\' :: (gap ++ ['\r'])) := by
  constructor
  · intro h
    unfold opensContinuation at h
    split at h
    · rename_i rest
      have hsplit := List.take_append_drop (run (fun c => c == ' ' || c == '\t') rest) rest
      rw [take_run] at hsplit
      refine ⟨rest.takeWhile fun c => c == ' ' || c == '\t', ?_, ?_⟩
      · intro c hc
        simpa using List.mem_takeWhile_imp hc
      · rcases (by simpa using h : _ ∨ _) with hdrop | hdrop
        · left
          rw [List.drop_eq_nil_of_le hdrop, List.append_nil] at hsplit
          rw [hsplit]
        · right
          rw [hdrop] at hsplit
          rw [hsplit]
    · cases h
  · have hrun : ∀ gap tail : List Char, (∀ c ∈ gap, c = ' ' ∨ c = '\t') →
        run (fun c => c == ' ' || c == '\t') tail = 0 →
        (gap ++ tail).drop (run (fun c => c == ' ' || c == '\t') (gap ++ tail)) = tail := by
      intro gap tail hgap htail
      induction gap with
      | nil => rw [List.nil_append, htail, List.drop_zero]
      | cons c gap ih =>
          have hc : (c == ' ' || c == '\t') = true := by simpa using hgap c (by simp)
          rw [List.cons_append, run_cons, if_pos hc, List.drop_succ_cons]
          exact ih fun c hc => hgap c (by simp [hc])
    rintro ⟨gap, hgap, rfl | rfl⟩
    · have hdrop := hrun gap [] hgap rfl
      rw [List.append_nil] at hdrop
      simp [opensContinuation, hdrop]
    · have hdrop := hrun gap ['\r'] hgap rfl
      simp [opensContinuation, hdrop]

/-- A text is open if a backslash and blanks stand at its end. -/
theorem endsOpen_iff : endsOpen chars ↔
    ∃ front gap, (∀ c ∈ gap, c = ' ' ∨ c = '\t') ∧
      (chars = front ++ '\\' :: gap ∨ chars = front ++ '\\' :: (gap ++ ['\r'])) := by
  induction chars with
  | nil => simp [endsOpen]
  | cons c chars ih =>
      rw [endsOpen, Bool.or_eq_true, opensContinuation_iff, ih]
      constructor
      · rintro (⟨gap, hgap, h⟩ | ⟨front, gap, hgap, h⟩)
        · exact ⟨[], gap, hgap, h⟩
        · exact ⟨c :: front, gap, hgap, h.imp (congrArg (c :: ·)) (congrArg (c :: ·))⟩
      · rintro ⟨_ | ⟨x, front⟩, gap, hgap, h⟩
        · exact .inl ⟨gap, hgap, h⟩
        · exact .inr ⟨front, gap, hgap, h.imp (fun h => (List.cons.inj h).2)
            fun h => (List.cons.inj h).2⟩

/-- A text that leaves no continuation open has no suffix that does. -/
theorem endsOpen_drop (h : endsOpen chars = false) (n : Nat) : endsOpen (chars.drop n) = false := by
  induction n generalizing chars with
  | zero => exact h
  | succ n ih =>
      rcases chars with _ | ⟨c, chars⟩
      · rfl
      · exact ih (Bool.or_eq_false_iff.mp h).2

/-- What follows a text at a line end follows its suffixes there too. -/
theorem Ends.drop (h : Ends chars tail) (n : Nat) : Ends (chars.drop n) tail := by
  cases h with
  | nil => exact .nil
  | newline h => exact .newline (endsOpen_drop h n)

/-- What follows a text at a line end follows it without its first character too. -/
theorem Ends.of_cons {c : Char} (h : Ends (c :: chars) tail) : Ends chars tail :=
  h.drop 1

/-- What follows a text at a line end follows any suffix of it there too. -/
theorem Ends.of_suffix {suffix : List Char} (h : Ends chars tail) (hsuffix : suffix <:+ chars) :
    Ends suffix tail := by
  rw [List.suffix_iff_eq_drop.mp hsuffix]
  exact h.drop _

/-- What follows starts where a line ends. -/
theorem Ends.atLineEnd (h : Ends chars tail) : atLineEnd tail := by
  cases h <;> rfl

/-- Whether a line ends here does not depend on what follows the text. -/
theorem atLineEnd_append (h : Ends chars tail) :
    Scan.atLineEnd (chars ++ tail) = Scan.atLineEnd chars := by
  rcases chars with _ | ⟨c, chars⟩
  · exact h.atLineEnd
  · rfl

/-- Dropping characters of the text leaves what follows. -/
theorem drop_append (hn : n ≤ chars.length) : (chars ++ tail).drop n = chars.drop n ++ tail :=
  List.drop_append_of_le_length hn

/-- Taking characters of the text never reaches what follows. -/
theorem take_append (hn : n ≤ chars.length) : (chars ++ tail).take n = chars.take n :=
  List.take_append_of_le_length hn

/-! ### Runs and repetitions -/

/-- A run that line feeds end does not reach what follows. -/
theorem run_append (hp : p '\n' = false) (h : Ends chars tail) :
    run p (chars ++ tail) = run p chars := by
  induction chars with
  | nil => cases h <;> simp [run_cons, hp]
  | cons c chars ih => rw [List.cons_append, run_cons, run_cons, ih h.of_cons]

/-- A run of at least one character does not reach what follows. -/
theorem run?_append (hp : p '\n' = false) (h : Ends chars tail) :
    run? p (chars ++ tail) = run? p chars := by
  rw [run?, run_append hp h, run?]

/-- A step that goes no further than the text and finds the same in a longer one is repeated
as often there. -/
theorem repeated_append {step : List Char → Nat} (hle : ∀ chars, step chars ≤ chars.length)
    (hstep : ∀ chars, Ends chars tail → step (chars ++ tail) = step chars) (h : Ends chars tail) :
    repeated step 0 (chars ++ tail) = repeated step 0 chars := by
  refine repeated_induction
    (motive := fun chars n => Ends chars tail → repeated step 0 (chars ++ tail) = n) hle ?_ ?_
    chars h
  · intro chars hzero h
    exact repeated_of_step_zero (by rw [hstep chars h, hzero])
  · intro chars n hpos ih h
    have heq := hstep chars h
    rw [repeated_of_step_pos (by rwa [heq]) (heq ▸ (hle chars).trans (by simp)), heq,
      drop_append (hle chars), ih (h.drop _)]

/-! ### Words -/

/-- Words do not reach the next line. -/
theorem word_append (h : Ends chars tail) : word (chars ++ tail) = word chars :=
  run?_append (by decide) h

/-- One step of a path segment does not look at the next line. -/
theorem segmentStep_append (h : Ends chars tail) :
    segmentStep (chars ++ tail) = segmentStep chars := by
  rcases chars with _ | ⟨c, chars⟩
  · cases h <;> rfl
  · by_cases hc : c = '/'
    · subst hc
      simp only [List.cons_append, segmentStep, run_append (p := isPathChar) (by decide) h.of_cons]
    · simp [segmentStep, hc]

/-- Paths do not reach the next line. -/
theorem path_append (h : Ends chars tail) : path (chars ++ tail) = path chars := by
  have hrun : run? isPathChar (chars ++ tail) = run? isPathChar chars := run?_append (by decide) h
  rw [path, path, hrun]
  rcases hfirst : run? isPathChar chars with _ | first
  · rfl
  · have hlen := (inline_run? (by decide) hfirst).le_length
    simp only [drop_append hlen, repeated_append (fun chars => (inline_segmentStep chars).le_length)
      (fun _ h => segmentStep_append h) (h.drop first)]

/-- Command names do not reach the next line. -/
theorem commandName_append (h : Ends chars tail) :
    commandName (chars ++ tail) = commandName chars := by
  rcases chars with _ | ⟨c, chars⟩
  · cases h <;> rfl
  · simp only [List.cons_append, commandName, run_append (p := isNameChar) (by decide) h.of_cons]

/-- Fake players do not reach the next line. -/
theorem fakePlayer_append (h : Ends chars tail) :
    fakePlayer (chars ++ tail) = fakePlayer chars := by
  rcases chars with _ | ⟨c, chars⟩
  · cases h <;> rfl
  · by_cases hc : c = '#'
    · subst hc
      simp only [List.cons_append, fakePlayer, run?_append (p := isPathChar) (by decide) h.of_cons]
    · simp [fakePlayer, hc]

/-! ### Numbers and coordinates -/

/-- The sign of a number is on its line. -/
theorem minus_append (h : Ends chars tail) : minus (chars ++ tail) = minus chars := by
  rcases chars with _ | ⟨c, chars⟩
  · cases h <;> rfl
  · by_cases hc : c = '-'
    · subst hc
      rfl
    · simp [minus, hc]

/-- The sign of an exponent is on its line. -/
theorem exponentSign_append (h : Ends chars tail) :
    exponentSign (chars ++ tail) = exponentSign chars := by
  rcases chars with _ | ⟨c, chars⟩
  · cases h <;> rfl
  · by_cases hplus : c = '+'
    · subst hplus
      rfl
    · by_cases hminus : c = '-'
      · subst hminus
        rfl
      · simp [exponentSign, hplus, hminus]

/-- The digits of a number do not reach the next line. -/
theorem decimal_append (h : Ends chars tail) : decimal (chars ++ tail) = decimal chars := by
  have hrun : ∀ {chars}, Ends chars tail →
      run Char.isDigit (chars ++ tail) = run Char.isDigit chars := run_append (by decide)
  have hrest := h.drop (run Char.isDigit chars)
  simp only [decimal, hrun h, drop_append (run_le_length _ _)]
  rcases hdrop : chars.drop (run Char.isDigit chars) with _ | ⟨c, rest⟩
  · rw [hdrop] at hrest
    cases hrest <;> rfl
  · rw [hdrop] at hrest
    by_cases hc : c = '.'
    · subst hc
      simp [hrun hrest.of_cons]
    · simp [hc]

/-- Exponents do not reach the next line. -/
theorem exponent_append (h : Ends chars tail) : exponent (chars ++ tail) = exponent chars := by
  rcases chars with _ | ⟨c, chars⟩
  · cases h <;> rfl
  · have hsign := (inline_exponentSign chars).le_length
    simp only [List.cons_append, exponent, exponentSign_append h.of_cons, drop_append hsign,
      run_append (p := Char.isDigit) (by decide) (h.of_cons.drop _)]

/-- Numbers do not reach the next line. -/
theorem number_append (h : Ends chars tail) : number (chars ++ tail) = number chars := by
  have hsign := (inline_minus chars).le_length
  simp only [number, minus_append h, drop_append hsign, decimal_append (h.drop _)]
  rcases hdecimal : decimal (chars.drop (minus chars)) with _ | mantissa
  · rfl
  · have hlen := ((inline_minus chars).add (inline_decimal hdecimal)).le_length
    simp only [drop_append hlen, exponent_append (h.drop _)]

/-- The suffix of a number is on its line. -/
theorem suffixedNumber_append (h : Ends chars tail) :
    suffixedNumber (chars ++ tail) = suffixedNumber chars := by
  simp only [suffixedNumber, number_append h]
  rcases hnumber : number chars with _ | count
  · rfl
  · have hrest := h.drop count
    simp only [drop_append (inline_number hnumber).le_length]
    rcases hdrop : chars.drop count with _ | ⟨c, rest⟩
    · rw [hdrop] at hrest
      cases hrest <;> rfl
    · rfl

/-- The namespace of a resource location does not reach the next line. -/
theorem resourceNamespace_append (h : Ends chars tail) :
    resourceNamespace (chars ++ tail) = resourceNamespace chars := by
  simp only [resourceNamespace, word_append h, suffixedNumber_append h]
  rcases hword : word chars with _ | count
  · rfl
  · have hrest := h.drop count
    simp only [drop_append (inline_word hword).le_length]
    rcases hdrop : chars.drop count with _ | ⟨c, rest⟩
    · rw [hdrop] at hrest
      cases hrest <;> rfl
    · rfl

/-- Nor does the path behind its colon. -/
theorem path_drop_append (h : Ends chars tail) (hspace : resourceNamespace chars = some n) :
    path ((chars ++ tail).drop (n + 1)) = path (chars.drop (n + 1)) := by
  obtain ⟨-, rest, hcolon⟩ := resourceNamespace_eq_some hspace
  have hlen : n + 1 ≤ chars.length := by
    by_contra hlt
    rw [List.drop_eq_nil_of_le (by omega)] at hcolon
    cases hcolon
  rw [drop_append hlen, path_append (h.drop _)]

/-- Whether a word is a whole number does not depend on the next line. -/
theorem wholeNumber_append (h : Ends chars tail) :
    wholeNumber (chars ++ tail) = wholeNumber chars := by
  rw [wholeNumber, suffixedNumber_append h, word_append h, wholeNumber]

/-- A coordinate does not reach the next line. -/
theorem coordinate_append (h : Ends chars tail) :
    coordinate (chars ++ tail) = coordinate chars := by
  rcases chars with _ | ⟨c, chars⟩
  · cases h <;> rfl
  · have hsign := (inline_minus chars).le_length
    have hnumber := suffixedNumber_append h
    rw [List.cons_append] at hnumber
    simp only [List.cons_append, coordinate, minus_append h.of_cons, drop_append hsign,
      decimal_append (h.of_cons.drop _), hnumber]

/-- Coordinates do not reach the next line. -/
theorem coordinates_append (h : Ends chars tail) :
    coordinates (chars ++ tail) = coordinates chars := by
  have hgap : ∀ {n}, run? isBlank (chars.drop n ++ tail) = run? isBlank (chars.drop n) :=
    fun {n} => run?_append (by decide) (h.drop n)
  simp only [coordinates, coordinate_append h]
  rcases hx : coordinate chars with _ | x
  · rfl
  have hxline := inline_coordinate hx
  simp only [Option.bind_eq_bind, Option.bind_some, drop_append hxline.le_length, hgap]
  rcases hfirst : run? isBlank (chars.drop x) with _ | firstGap
  · rfl
  have hyline := hxline.add (inline_run? (by decide) hfirst)
  simp only [Option.bind_some, drop_append hyline.le_length, coordinate_append (h.drop _)]
  rcases hy : coordinate (chars.drop (x + firstGap)) with _ | y
  · rfl
  have hgapline := hyline.add (inline_coordinate hy)
  simp only [Option.bind_some, drop_append hgapline.le_length, hgap]
  rcases hsecond : run? isBlank (chars.drop (x + firstGap + y)) with _ | secondGap
  · rfl
  have hzline := hgapline.add (inline_run? (by decide) hsecond)
  simp only [Option.bind_some, drop_append hzline.le_length, coordinate_append (h.drop _)]
  rcases hz : coordinate (chars.drop (x + firstGap + y + secondGap)) with _ | z
  · rfl
  have hend := hzline.add (inline_coordinate hz)
  have hrest := h.drop (x + firstGap + y + secondGap + z)
  simp only [Option.bind_some, drop_append hend.le_length]
  rcases hdrop : chars.drop (x + firstGap + y + secondGap + z) with _ | ⟨c, rest⟩
  · rw [hdrop] at hrest
    cases hrest <;> rfl
  · rfl

/-! ### Trivia and statements -/

/-- A line break after a text completes no continuation of it. -/
theorem continuation_append (h : Ends chars tail) :
    continuation (chars ++ tail) = continuation chars := by
  cases h with
  | nil => rw [List.append_nil]
  | @newline rest hclosed =>
      rcases chars with _ | ⟨c, chars⟩
      · rfl
      · by_cases hc : c = '\\'
        · subst hc
          have hopen := (Bool.or_eq_false_iff.mp hclosed).1
          have hends : Ends chars ('\n' :: rest) := (Ends.newline hclosed).of_cons
          simp only [opensContinuation] at hopen
          simp only [List.cons_append, continuation,
            run_append (p := fun c => c == ' ' || c == '\t') (by decide) hends,
            drop_append (run_le_length _ chars)]
          rcases hdrop : chars.drop (run (fun c => c == ' ' || c == '\t') chars) with
            _ | ⟨x, _ | ⟨y, after⟩⟩
          · simp [hdrop] at hopen
          · have hx : x ≠ '\r' := by
              rintro rfl
              simp [hdrop] at hopen
            by_cases hnewline : x = '\n' <;> simp [hnewline, hx]
          · by_cases hnewline : x = '\n'
            · simp [hnewline]
            · by_cases hx : x = '\r' <;> by_cases hy : y = '\n' <;> simp [hnewline, hx, hy]
        · simp [continuation, hc]

/-- One step through spacing does not reach the next line. -/
theorem triviaStep_append (h : Ends chars tail) :
    triviaStep (chars ++ tail) = triviaStep chars := by
  have hcont := continuation_append h
  rcases chars with _ | ⟨c, chars⟩
  · cases h <;> rfl
  · rw [List.cons_append] at hcont
    simp only [List.cons_append, triviaStep, hcont]

/-- Spacing ends with its line. -/
theorem trivia_append_tail (h : Ends chars tail) : trivia (chars ++ tail) = trivia chars :=
  repeated_append triviaStep_le_length (fun _ h => triviaStep_append h) h

/-- One step through a statement does not reach the next line. -/
theorem statementStep_append (h : Ends chars tail) :
    statementStep (chars ++ tail) = statementStep chars := by
  have hcont := continuation_append h
  rcases chars with _ | ⟨c, chars⟩
  · cases h <;> rfl
  · rw [List.cons_append] at hcont
    simp only [List.cons_append, statementStep, hcont]

/-- A statement ends with its line. -/
theorem statement_append (h : Ends chars tail) : statement (chars ++ tail) = statement chars :=
  repeated_append statementStep_le_length (fun _ h => statementStep_append h) h

/-- The trimmed text of a statement ends with its line. -/
theorem trimmedStatement_append (h : Ends chars tail) :
    trimmedStatement (chars ++ tail) = trimmedStatement chars := by
  rw [trimmedStatement, statement_append h, take_append (statement_le_length chars),
    trimmedStatement]

/-- The tag of a comment is on its line. -/
theorem commentTag_append (h : Ends chars tail) :
    commentTag (chars ++ tail) = commentTag chars := by
  have hrest := h.drop (run (· == '#') chars)
  simp only [commentTag, run_append (p := (· == '#')) (by decide) h,
    drop_append (run_le_length _ _)]
  rcases hdrop : chars.drop (run (· == '#') chars) with _ | ⟨mark, rest⟩
  · rw [hdrop] at hrest
    cases hrest <;> rfl
  · rw [hdrop] at hrest
    simp only [List.cons_append]
    split
    · rename_i hmark
      have hne : ('\n' == mark) = false := by
        rcases (by simpa [or_assoc] using hmark : mark = '!' ∨ mark = '@' ∨ mark = '>') with
          rfl | rfl | rfl <;> rfl
      rw [run_append hne hrest.of_cons]
    · rfl

/-- The text of a comment is on its line. -/
theorem commentText_append (h : Ends chars tail) :
    commentText (chars ++ tail) = commentText chars := by
  simp only [commentText, statement_append h, take_append (statement_le_length chars)]

end Mcfunction.Scan
