import Mcfunction.Parser.Command
import Mcfunction.Proofs.Numbers.Scan

/-!
# Recognizers on Words

What the recognizers find where a word stands, with a blank or the end of the text behind it. A
word can be a number, and it can also go on where a number ends, as `5abc` and `1-2` do: the
longer of the two decides. A coordinate triple is three words that are numbers and nothing more.

## Main results

* `isNumeral_iff`: a word is a numeral just when the recognizer of numbers takes all of it.
* `coordinates_isSome_iff`: a coordinate triple stands where three numerals do.
-/

namespace Mcfunction

/-- The characters of words with a blank before each. -/
def spaced (words : List String) : List Char :=
  words.flatMap fun word => ' ' :: word.toList

/-- The word is a numeral with an optional type letter, and the letter. -/
def WritesNumber (word : String) (suffix : Option Char) : Prop :=
  ∃ digits, Numeral digits ∧ (∀ letter ∈ suffix, Scan.isSuffixLetter letter) ∧
    word.toList = digits ++ suffix.toList

/-- The word is a numeral with an optional type letter. -/
def IsNumeral (word : String) : Prop :=
  ∃ suffix, WritesNumber word suffix

/-- The first three words are numerals. -/
def StartsTriple (words : List String) : Prop :=
  3 ≤ words.length ∧ ∀ word ∈ words.take 3, IsNumeral word

/-- The word starts with a lowercase letter. -/
def StartsLower (word : String) : Prop :=
  ∃ c ∈ word.toList.head?, c.isLower

/-- Behind a word stands a blank, or nothing. -/
def WordEnd (tail : List Char) : Prop :=
  tail = [] ∨ ∃ rest, tail = ' ' :: rest

@[simp] theorem spaced_nil : spaced [] = [] :=
  rfl

@[simp] theorem spaced_cons (word : String) (words : List String) :
    spaced (word :: words) = ' ' :: (word.toList ++ spaced words) :=
  rfl

/-- Words with blanks before them end the word in front. -/
theorem wordEnd_spaced (words : List String) : WordEnd (spaced words) := by
  cases words with
  | nil => exact .inl rfl
  | cons word words => exact .inr ⟨_, spaced_cons word words⟩

theorem length_le_spaced (words : List String) : words.length ≤ (spaced words).length := by
  induction words with
  | nil => exact le_rfl
  | cons word words ih =>
      rw [spaced_cons, List.length_cons, List.length_cons, List.length_append]
      omega

/-- Words joined by blanks. -/
theorem toList_intercalate_blank (word : String) (words : List String) :
    (" ".intercalate (word :: words)).toList = word.toList ++ spaced words := by
  induction words generalizing word with
  | nil => rw [String.intercalate_singleton, spaced_nil, List.append_nil]
  | cons next words ih =>
      rw [String.intercalate_cons_cons, String.toList_append, String.toList_append, ih, spaced_cons,
        List.append_assoc]
      rfl

namespace Scan

variable {chars tail : List Char} {word : String} {words : List String} {p : Char → Bool}
  {suffix : Option Char} {n : Nat}

/-! ### Words -/

/-- A run of a class without blanks ends with the word. -/
theorem run_append_wordEnd (htail : WordEnd tail) (hp : p ' ' = false) :
    run p (chars ++ tail) = run p chars := by
  obtain rfl | ⟨rest, rfl⟩ := htail
  · rw [List.append_nil]
  · exact run_append_cons hp

/-- A word is recognized as a whole. -/
theorem word_row (h : Row isWordChar chars) (htail : WordEnd tail) :
    Scan.word (chars ++ tail) = some chars.length :=
  run?_eq_some.mpr ⟨by rw [run_append_wordEnd htail (by decide), h.run_eq], h.length_pos⟩

/-- A word that starts with a lowercase letter is a command name if it has no minus sign. -/
theorem commandName_row (h : ∀ c ∈ chars, isWordChar c) (hminus : '-' ∉ chars)
    (hlower : ∃ c ∈ chars.head?, c.isLower) (htail : WordEnd tail) :
    commandName (chars ++ tail) = some chars.length := by
  obtain ⟨x, hx, hlower⟩ := hlower
  obtain ⟨rest, rfl⟩ := List.head?_eq_some_iff.mp hx
  have hname : ∀ c ∈ rest, isNameChar c := by
    intro c hc
    have hclass := h c (List.mem_cons_of_mem x hc)
    have hne : c ≠ '-' := ne_of_mem_of_not_mem (List.mem_cons_of_mem x hc) hminus
    simpa [isWordChar, isNameChar, hne] using hclass
  rw [List.cons_append, commandName, if_pos hlower, run_append_wordEnd htail (by decide),
    run_of_forall hname, List.length_cons, Nat.add_comm]

theorem startsQuoted_row (h : Row isWordChar chars) : startsQuoted (chars ++ tail) = false := by
  obtain ⟨c, rest, rfl⟩ := List.exists_cons_of_ne_nil h.1
  have hc := h.2 c List.mem_cons_self
  have hdouble : c ≠ '"' := ne_of_class hc (by decide)
  have hsingle : c ≠ '\'' := ne_of_class hc (by decide)
  simp [startsQuoted, hdouble, hsingle]

/-- A word with a blank behind it has no interpolation. -/
theorem startsInterpolated_row (h : Row isWordChar chars) (htail : WordEnd tail) :
    startsInterpolated false (chars ++ tail) = false := by
  have hlead : ∀ c ∈ chars, isLeadChar false c := fun c hc => by
    simp [isLeadChar, isPathChar, h.2 c hc]
  rw [startsInterpolated, startsQuoted_row h, if_neg Bool.false_ne_true,
    run_append_wordEnd htail (by decide), run_of_forall hlead, List.drop_left]
  obtain rfl | ⟨rest, rfl⟩ := htail
  · rfl
  · rfl

theorem startsPathSuffix_wordEnd (htail : WordEnd tail) :
    Parser.startsPathSuffix tail = false := by
  obtain rfl | ⟨rest, rfl⟩ := htail
  · rfl
  · rfl

/-- Only the blank before it separates a word from what stands there. -/
theorem trivia_spaced (h : Row isWordChar word.toList) (words : List String) :
    trivia (spaced (word :: words)) = 1 := by
  obtain ⟨x, rest, hword⟩ := List.exists_cons_of_ne_nil h.1
  have hx : isScalarChar x := isScalarChar_of_isWordChar (h.2 x (hword ▸ List.mem_cons_self))
  have hgap := trivia_append [' '] (x :: (rest ++ spaced words))
    (List.forall_mem_singleton.mpr rfl)
  rw [trivia_cons_eq_zero (isBlank_of_isScalarChar hx) (ne_of_class hx (by decide))] at hgap
  rw [spaced_cons, hword]
  exact hgap

/-- A command follows where the next word starts with a lowercase letter. -/
theorem startsSubcommand_spaced (h : ∀ word ∈ words, Row isWordChar word.toList) :
    Parser.startsSubcommand (spaced words) ↔ ∃ next ∈ words.head?, StartsLower next := by
  cases words with
  | nil =>
      refine ⟨fun hstart => ?_, fun ⟨_, hnext, _⟩ => ?_⟩
      · cases hstart
      · cases hnext
  | cons name words =>
      have hrow := h name List.mem_cons_self
      obtain ⟨x, rest, hname⟩ := List.exists_cons_of_ne_nil hrow.1
      have hx := hrow.2 x (hname ▸ List.mem_cons_self)
      have hdollar : (x == '$') = false := beq_eq_false_iff_ne.mpr (ne_of_class hx (by decide))
      rw [Parser.startsSubcommand, trivia_spaced hrow, spaced_cons, List.drop_succ_cons,
        List.drop_zero]
      simp [StartsLower, hname, hdollar]

/-! ### Numbers -/

/-- A number ends with the word. -/
theorem suffixedNumber_append_wordEnd (htail : WordEnd tail) :
    suffixedNumber (chars ++ tail) = suffixedNumber chars := by
  obtain rfl | ⟨rest, rfl⟩ := htail
  · rw [List.append_nil]
  · exact suffixedNumber_append_cons (by decide) (by decide)

/-- The recognizer takes all of a word just when the word is a numeral with a type letter. -/
theorem suffixedNumber_eq_length_iff :
    suffixedNumber word.toList = some (word.toList.length, suffix) ↔ WritesNumber word suffix := by
  rw [suffixedNumber_iff]
  constructor
  · rintro ⟨n, hnumber, h⟩
    have hkind := number_kind hnumber
    refine ⟨_, hkind, ?_⟩
    cases suffix with
    | none =>
        refine ⟨fun letter hletter => (Option.not_mem_none letter hletter).elim, ?_⟩
        rw [← h.1, List.take_length, Option.toList_none, List.append_nil]
    | some letter =>
        obtain ⟨hnext, hletter, hlength⟩ := h
        obtain ⟨rest, hrest⟩ := List.head?_eq_some_iff.mp hnext
        refine ⟨by rintro _ ⟨⟩; exact hletter, ?_⟩
        obtain rfl : rest = [] := by
          have hdrop := congrArg List.length hrest
          rw [List.length_drop, List.length_cons, hlength] at hdrop
          exact List.eq_nil_of_length_eq_zero (by omega)
        rw [Option.toList_some, ← hrest, List.take_append_drop]
  · rintro ⟨digits, hdigits, hletter, hword⟩
    cases suffix with
    | none =>
        rw [Option.toList_none, List.append_nil] at hword
        rw [hword]
        refine ⟨_, number_recognizes.eq_length hdigits, rfl, fun letter hnext => ?_⟩
        rw [List.drop_length] at hnext
        cases hnext
    | some letter =>
        have hclass := hletter letter rfl
        have hnumber : number (digits ++ [letter]) = some digits.length := by
          rw [number_append_cons (isNumeralChar_of_isSuffixLetter hclass), hdigits.number_eq]
        rw [hword, Option.toList_some]
        exact ⟨_, hnumber, by rw [List.drop_left]; rfl, hclass, by simp⟩

/-- A word is a numeral if a number with its letter goes to its end. -/
theorem isNumeral_iff :
    IsNumeral word ↔ ∃ suffix, suffixedNumber word.toList = some (word.toList.length, suffix) :=
  exists_congr fun _ => suffixedNumber_eq_length_iff.symm

/-- A word that is a numeral is a number. -/
theorem wholeNumber_of_writesNumber (hrow : Row isWordChar word.toList) (htail : WordEnd tail)
    (h : WritesNumber word suffix) :
    wholeNumber (word.toList ++ tail) = some (word.toList.length, suffix) := by
  rw [wholeNumber, suffixedNumber_append_wordEnd htail, suffixedNumber_eq_length_iff.mpr h,
    word_row hrow htail]
  exact if_pos le_rfl

/-- Any other word goes on where the number in it ends. -/
theorem wholeNumber_of_not_isNumeral (hrow : Row isWordChar word.toList) (htail : WordEnd tail)
    (h : ¬ IsNumeral word) : wholeNumber (word.toList ++ tail) = none := by
  rw [wholeNumber, suffixedNumber_append_wordEnd htail, word_row hrow htail]
  rcases hnumber : suffixedNumber word.toList with _ | ⟨count, suffix⟩
  · rfl
  · have hle := (inline_suffixedNumber hnumber).le_length
    refine if_neg fun hcount => h (isNumeral_iff.mpr ⟨suffix, ?_⟩)
    rw [hnumber, Nat.le_antisymm hle hcount]

/-- No colon follows a word, so it is no namespace. -/
theorem resourceNamespace_row_wordEnd (h : Row isWordChar chars) (htail : WordEnd tail) :
    resourceNamespace (chars ++ tail) = none := by
  rw [resourceNamespace, word_row h htail]
  dsimp only
  rw [List.drop_left]
  obtain rfl | ⟨rest, rfl⟩ := htail
  · rfl
  · rfl

/-! ### Coordinates -/

/-- A word has no mark, so a coordinate part in it is a number. -/
theorem coordinate_row (h : Row isWordChar chars) (htail : WordEnd tail) :
    coordinate (chars ++ tail) = (suffixedNumber chars).map Prod.fst := by
  obtain ⟨c, rest, rfl⟩ := List.exists_cons_of_ne_nil h.1
  have hc := h.2 c List.mem_cons_self
  have hmark : ¬ (c = '~' ∨ c = '^') := not_or.mpr
    ⟨ne_of_class hc (by decide), ne_of_class hc (by decide)⟩
  rw [← suffixedNumber_append_wordEnd htail, List.cons_append, coordinate_plain hmark]

/-- A coordinate part ends within its word. -/
theorem coordinate_row_le (h : Row isWordChar chars) (htail : WordEnd tail)
    (hn : coordinate (chars ++ tail) = some n) : n ≤ chars.length := by
  rw [coordinate_row h htail] at hn
  obtain ⟨⟨m, suffix⟩, hnumber, rfl⟩ := Option.map_eq_some_iff.mp hn
  exact (inline_suffixedNumber hnumber).le_length

/-- A word is a numeral if a coordinate goes to its end. -/
theorem isNumeral_iff_coordinate (hrow : Row isWordChar word.toList) (htail : WordEnd tail) :
    IsNumeral word ↔ coordinate (word.toList ++ tail) = some word.toList.length := by
  rw [isNumeral_iff, coordinate_row hrow htail, Option.map_eq_some_iff]
  constructor
  · rintro ⟨suffix, h⟩
    exact ⟨_, h, rfl⟩
  · rintro ⟨⟨m, suffix⟩, h, rfl⟩
    exact ⟨suffix, h⟩

/-- Where a coordinate part ends inside a word, the word goes on. -/
theorem exists_wordChar_of_lt (h : Row isWordChar chars) (hn : n < chars.length)
    (tail : List Char) :
    ∃ c rest, (chars ++ tail).drop n = c :: rest ∧ isWordChar c := by
  refine ⟨chars[n], chars.drop (n + 1) ++ tail, ?_, h.2 _ (List.getElem_mem hn)⟩
  rw [List.drop_append_of_le_length hn.le, List.drop_eq_getElem_cons hn, List.cons_append]

/-- Behind a word and a blank stands the next word. -/
theorem drop_word (word next : String) (words : List String) (n : Nat) :
    (word.toList ++ spaced (next :: words)).drop (word.toList.length + 1 + n) =
      (next.toList ++ spaced words).drop n := by
  rw [Nat.add_assoc, List.drop_length_add_append, Nat.add_comm, spaced_cons,
    List.drop_succ_cons]

/-- Behind two words and two blanks stands the third. -/
theorem drop_third (first second third : String) (words : List String) (n : Nat) :
    (first.toList ++ spaced (second :: third :: words)).drop
        (first.toList.length + 1 + second.toList.length + 1 + n) =
      (third.toList ++ spaced words).drop n := by
  rw [Nat.add_assoc (first.toList.length + 1), Nat.add_assoc (first.toList.length + 1), drop_word,
    drop_word]

/-- One blank stands between two words, and none behind the last. -/
theorem run?_isBlank_spaced (hwords : ∀ word ∈ words, Row isWordChar word.toList) :
    run? isBlank (spaced words) = if words = [] then none else some 1 := by
  cases words with
  | nil => rfl
  | cons word words =>
      obtain ⟨c, rest, hword⟩ := List.exists_cons_of_ne_nil (hwords word List.mem_cons_self).1
      have hc : isWordChar c := (hwords word List.mem_cons_self).2 c (hword ▸ List.mem_cons_self)
      rw [if_neg (List.cons_ne_nil _ _), run?_eq_some, spaced_cons, hword, List.cons_append,
        run_cons, if_pos (by rfl), run_cons,
        isBlank_of_isScalarChar (isScalarChar_of_isWordChar hc), if_neg Bool.false_ne_true]
      exact ⟨rfl, Nat.one_pos⟩

/-- A coordinate part with blanks behind it is a whole word with another word behind it. -/
theorem coordinate_gap {gap : Nat} (h : Row isWordChar word.toList)
    (hwords : ∀ word ∈ words, Row isWordChar word.toList)
    (hn : coordinate (word.toList ++ spaced words) = some n)
    (hgap : run? isBlank ((word.toList ++ spaced words).drop n) = some gap) :
    IsNumeral word ∧ n = word.toList.length ∧ gap = 1 ∧ words ≠ [] := by
  have hend := wordEnd_spaced words
  obtain hlt | rfl := Nat.lt_or_eq_of_le (coordinate_row_le h hend hn)
  · obtain ⟨c, rest, hdrop, hc⟩ := exists_wordChar_of_lt h hlt (spaced words)
    have hblank := isBlank_of_isScalarChar (isScalarChar_of_isWordChar hc)
    obtain ⟨hrun, hpos⟩ := run?_eq_some.mp hgap
    rw [hdrop, run_cons, hblank, if_neg Bool.false_ne_true] at hrun
    omega
  · rw [List.drop_left, run?_isBlank_spaced hwords] at hgap
    split_ifs at hgap with hne
    exact ⟨(isNumeral_iff_coordinate h hend).mpr hn, rfl, (Option.some.inj hgap).symm, hne⟩

/-- Three numerals are taken for coordinates. -/
theorem startsTriple_of_isNumeral {first second third : String} (h : IsNumeral first)
    (h' : IsNumeral second) (h'' : IsNumeral third) :
    StartsTriple (first :: second :: third :: words) := by
  refine ⟨Nat.le_add_left _ _, ?_⟩
  simp only [List.take_succ_cons, List.take_zero, List.forall_mem_cons]
  exact ⟨h, h', h'', List.forall_mem_nil _⟩

/-- Only three numerals are coordinates. -/
theorem startsTriple_of_coordinates {ranges : Triple (Nat × Nat)}
    (hwords : ∀ w ∈ word :: words, Row isWordChar w.toList)
    (h : coordinates (word.toList ++ spaced words) = some ranges) :
    StartsTriple (word :: words) := by
  obtain ⟨x, gap, y, gap', z, hx, hgap, hy, hgap', hz, hpath, -⟩ := coordinates_iff.mp h
  obtain ⟨hword, hwords⟩ := List.forall_mem_cons.mp hwords
  obtain ⟨hfirst, rfl, rfl, hne⟩ := coordinate_gap hword hwords hx hgap
  obtain ⟨second, words, rfl⟩ := List.exists_cons_of_ne_nil hne
  obtain ⟨hword', hwords⟩ := List.forall_mem_cons.mp hwords
  rw [← Nat.add_zero (word.toList.length + 1), drop_word, List.drop_zero] at hy
  rw [drop_word] at hgap'
  obtain ⟨hsecond, rfl, rfl, hne⟩ := coordinate_gap hword' hwords hy hgap'
  obtain ⟨third, words, rfl⟩ := List.exists_cons_of_ne_nil hne
  obtain ⟨hword'', -⟩ := List.forall_mem_cons.mp hwords
  have hdrop := drop_third word second third words
  rw [← Nat.add_zero (_ + second.toList.length + 1), hdrop, List.drop_zero] at hz
  rw [hdrop] at hpath
  have hthird : IsNumeral third := by
    have hend := wordEnd_spaced words
    obtain hlt | rfl := Nat.lt_or_eq_of_le (coordinate_row_le hword'' hend hz)
    · obtain ⟨c, rest, hdrop, hc⟩ := exists_wordChar_of_lt hword'' hlt (spaced words)
      have hnot := hpath c (by rw [hdrop]; rfl)
      rw [isPathChar, hc, Bool.true_or] at hnot
      cases hnot
    · exact (isNumeral_iff_coordinate hword'' hend).mpr hz
  exact startsTriple_of_isNumeral hfirst hsecond hthird

/-- Three numerals are coordinates, each word a part. -/
theorem coordinates_spaced {first second third : String}
    (hwords : ∀ word ∈ first :: second :: third :: words, Row isWordChar word.toList)
    (h : StartsTriple (first :: second :: third :: words)) :
    coordinates (first.toList ++ spaced (second :: third :: words)) =
      some ⟨(0, first.toList.length),
        (first.toList.length + 1, first.toList.length + 1 + second.toList.length),
        (first.toList.length + 1 + second.toList.length + 1,
          first.toList.length + 1 + second.toList.length + 1 + third.toList.length)⟩ := by
  obtain ⟨-, hnumerals⟩ := h
  simp only [List.take_succ_cons, List.take_zero, List.forall_mem_cons] at hnumerals hwords
  obtain ⟨hx, hy, hz, -⟩ := hnumerals
  obtain ⟨hfirst, hsecond, hthird, hrest⟩ := hwords
  have hlater : ∀ word ∈ third :: words, Row isWordChar word.toList :=
    List.forall_mem_cons.mpr ⟨hthird, hrest⟩
  have hend := wordEnd_spaced words
  refine coordinates_iff.mpr ⟨_, 1, _, 1, _, ?_, ?_, ?_, ?_, ?_, ?_, rfl⟩
  · exact (isNumeral_iff_coordinate hfirst (wordEnd_spaced _)).mp hx
  · rw [List.drop_left, run?_isBlank_spaced (List.forall_mem_cons.mpr ⟨hsecond, hlater⟩)]
    exact if_neg (List.cons_ne_nil _ _)
  · rw [← Nat.add_zero (first.toList.length + 1), drop_word]
    exact (isNumeral_iff_coordinate hsecond (wordEnd_spaced _)).mp hy
  · rw [drop_word, List.drop_left, run?_isBlank_spaced hlater]
    exact if_neg (List.cons_ne_nil _ _)
  · rw [← Nat.add_zero (_ + second.toList.length + 1), drop_third]
    exact (isNumeral_iff_coordinate hthird hend).mp hz
  · rw [drop_third, List.drop_left]
    intro c hc
    obtain hnil | ⟨rest, hrest⟩ := hend
    · rw [hnil] at hc
      cases hc
    · rw [hrest] at hc
      cases hc
      rfl

end Scan

end Mcfunction
