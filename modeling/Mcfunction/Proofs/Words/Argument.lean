import Mcfunction.Proofs.Numbers
import Mcfunction.Proofs.Parser.Command
import Mcfunction.Proofs.Written
import Mcfunction.Proofs.Words.Scan

/-!
# The Argument That a Word Is

Which argument a row of words starts with, and what the parser of arguments makes of the first
word: the number that it writes, the coordinates that three numbers make, a truth value or a
keyword. What follows a `run` is left to the parser of run clauses.

## Main definitions

* `WordsAt`: the arguments that words are, from the left.

## Main results

* `WordsAt.unique`: the rule leaves no choice.
* `argument_coordinates`, `argument_number`, `argument_word`: the argument at the front of a row
  of words.
-/

namespace Mcfunction

/-! ### The rule -/

/-- The place of a word behind the blank at the offset. -/
def wordSpan (offset : Nat) (word : String) : Span :=
  ⟨offset + 1, offset + 1 + word.utf8ByteSize⟩

/-- The number that the word behind the blank at the offset writes. -/
structure NumberAt (offset : Nat) (word : String) (number : Number) : Prop where
  /-- Its value is the one that its text writes. -/
  printable : number.Printable
  /-- Its text is the word. -/
  raw : number.raw = word
  /-- Its place is that of the word. -/
  span : number.span = wordSpan offset word

/-- The number as an absolute coordinate. -/
def Number.absolute (number : Number) : CoordinatePart :=
  .absolute number.value number.suffix number.span

/-- The arguments that words are, with a blank before each of which the first stands at the
offset. Three numerals are coordinates; otherwise the first word alone decides, but a `run`
takes all words behind it. -/
inductive WordsAt : Nat → List String → List Argument → Prop
  /-- No words are no arguments. -/
  | nil {offset} : WordsAt offset [] []
  /-- Three numerals are coordinates. -/
  | coordinates {offset first second third words x y z arguments} :
      NumberAt offset first x → NumberAt x.span.stop second y → NumberAt y.span.stop third z →
      WordsAt z.span.stop words arguments →
      WordsAt offset (first :: second :: third :: words)
        (.coordinates ⟨⟨x.absolute, y.absolute, z.absolute⟩, x.span.start, z.span.stop⟩ ::
          arguments)
  /-- Any other numeral is a number. -/
  | number {offset word words number arguments} : ¬ StartsTriple (word :: words) →
      NumberAt offset word number → WordsAt number.span.stop words arguments →
      WordsAt offset (word :: words) (.number number :: arguments)
  /-- A truth value. -/
  | boolean {offset word words arguments truth} : word = (if truth then "true" else "false") →
      WordsAt (wordSpan offset word).stop words arguments →
      WordsAt offset (word :: words) (.boolean ⟨truth, wordSpan offset word⟩ :: arguments)
  /-- A `run` with a command behind it, whose arguments are all words that are left. -/
  | run {offset name words arguments stop} : StartsLower name →
      stop = offset + byteWidth (spaced ("run" :: name :: words)) →
      WordsAt (wordSpan (wordSpan offset "run").stop name).stop words arguments →
      WordsAt offset ("run" :: name :: words)
        [.run ⟨.command ⟨⟨name, wordSpan (wordSpan offset "run").stop name⟩, arguments,
          (wordSpan (wordSpan offset "run").stop name).start, stop⟩,
          (wordSpan offset "run").start, stop⟩]
  /-- Any other word is a keyword. -/
  | keyword {offset word words arguments} : ¬ IsNumeral word → word ≠ "true" →
      word ≠ "false" → (word = "run" → ∀ next ∈ words.head?, ¬ StartsLower next) →
      WordsAt (wordSpan offset word).stop words arguments →
      WordsAt offset (word :: words) (.keyword ⟨word, wordSpan offset word⟩ :: arguments)

@[simp] theorem wordSpan_stop (offset : Nat) (word : String) :
    (wordSpan offset word).stop = offset + 1 + word.utf8ByteSize :=
  rfl

/-- Words of letters, digits, underscores and minus signs, none of which is empty. A word behind
`run` that starts as a command name does is one. -/
structure PlainWords (words : List String) : Prop where
  /-- The words are not empty, and have no other characters. -/
  row : ∀ word ∈ words, Row Scan.isWordChar word.toList
  /-- The words behind `run`. -/
  name : ∀ name, ["run", name] <:+: words → StartsLower name → '-' ∉ name.toList

theorem PlainWords.nil : PlainWords [] where
  row _ hword := (List.not_mem_nil hword).elim
  name _ hname := by cases List.eq_nil_of_infix_nil hname

/-- A word before plain words makes plain words, if behind a `run` no command name has a minus. -/
theorem PlainWords.cons {word : String} {words : List String}
    (hrow : Row Scan.isWordChar word.toList)
    (hname : word = "run" → ∀ next ∈ words.head?, StartsLower next → '-' ∉ next.toList)
    (h : PlainWords words) : PlainWords (word :: words) where
  row := List.forall_mem_cons.mpr ⟨hrow, h.row⟩
  name name hinfix := by
    rcases List.infix_cons_iff.mp hinfix with hprefix | hinfix
    · obtain ⟨hrun, hprefix⟩ := List.cons_prefix_cons.mp hprefix
      obtain ⟨tail, rfl⟩ := hprefix
      exact hname hrun.symm name rfl
    · exact h.name name hinfix

/-- The words behind some of several plain words are plain. -/
theorem PlainWords.of_suffix {words rest : List String} (h : PlainWords words)
    (hrest : rest <:+ words) : PlainWords rest where
  row word hword := h.row word (hrest.subset hword)
  name name hname := h.name name (hname.trans hrest.isInfix)

/-! ### What the rule says of all arguments -/

variable {offset : Nat} {word : String} {words : List String} {arguments : List Argument}

theorem byteWidth_spaced_cons (word : String) (words : List String) :
    byteWidth (spaced (word :: words)) = 1 + word.utf8ByteSize + byteWidth (spaced words) := by
  rw [spaced_cons, byteWidth_cons, byteWidth_append, byteWidth_eq_utf8ByteSize, Nat.add_assoc]
  rfl

/-- A number at a word ends where the word does. -/
theorem NumberAt.stop_eq {number : Number} (h : NumberAt offset word number) :
    number.span.stop = offset + 1 + word.utf8ByteSize :=
  congrArg Span.stop h.span

/-- No arguments are no words. -/
theorem WordsAt.eq_nil (h : WordsAt offset words []) : words = [] := by
  cases h
  rfl

/-- The last argument of all ends where the last one behind the first does, if there is one. -/
theorem WordsAt.last_stop_cons {value last : Argument} (h : WordsAt offset words arguments)
    (ih : ∀ last, arguments.getLast? = some last →
      last.span.stop = offset + byteWidth (spaced words))
    (hvalue : value.span.stop = offset) (hlast : (value :: arguments).getLast? = some last) :
    last.span.stop = offset + byteWidth (spaced words) := by
  rw [List.getLast?_cons, Option.some.injEq] at hlast
  subst hlast
  rcases hrest : arguments.getLast? with _ | last
  · rw [List.getLast?_eq_none_iff] at hrest
    subst hrest
    rw [h.eq_nil]
    exact hvalue
  · exact ih last hrest

/-- The last argument ends with the last word. -/
theorem WordsAt.last_stop (h : WordsAt offset words arguments) :
    ∀ last, arguments.getLast? = some last →
      last.span.stop = offset + byteWidth (spaced words) := by
  induction h with
  | nil =>
      intro last hlast
      cases hlast
  | coordinates hx hy hz h ih =>
      intro last hlast
      rw [h.last_stop_cons ih rfl hlast, hz.stop_eq, hy.stop_eq, hx.stop_eq]
      simp only [byteWidth_spaced_cons]
      omega
  | number _ hnumber h ih =>
      intro last hlast
      rw [h.last_stop_cons ih rfl hlast, hnumber.stop_eq, byteWidth_spaced_cons]
      omega
  | boolean _ h ih =>
      intro last hlast
      rw [h.last_stop_cons ih rfl hlast, byteWidth_spaced_cons, wordSpan_stop]
      omega
  | run _ hstop _ _ =>
      intro last hlast
      cases hlast
      exact hstop
  | keyword _ _ _ _ h ih =>
      intro last hlast
      rw [h.last_stop_cons ih rfl hlast, byteWidth_spaced_cons, wordSpan_stop]
      omega

/-! ### The rule leaves no choice -/

/-- A number at a word is written as the word. -/
theorem NumberAt.writesNumber {number : Number} (h : NumberAt offset word number) :
    WritesNumber word number.suffix := by
  obtain ⟨digits, hdigits, hletter, htext, -⟩ := h.printable
  exact ⟨digits, hdigits, hletter, h.raw ▸ htext⟩

/-- A word that is read as a number is a numeral. -/
theorem NumberAt.isNumeral {number : Number} (h : NumberAt offset word number) :
    IsNumeral word :=
  ⟨_, h.writesNumber⟩

/-- A word writes one number. -/
theorem NumberAt.unique {x y : Number} (hx : NumberAt offset word x)
    (hy : NumberAt offset word y) : x = y := by
  have hsuffix : x.suffix = y.suffix := by
    have hread := Scan.suffixedNumber_eq_length_iff.mpr hx.writesNumber
    rw [Scan.suffixedNumber_eq_length_iff.mpr hy.writesNumber] at hread
    exact (Prod.mk.inj (Option.some.inj hread)).2.symm
  obtain ⟨digits, -, -, htext, hvalue⟩ := hx.printable
  obtain ⟨digits', -, -, htext', hvalue'⟩ := hy.printable
  have hdigits : digits = digits' := by
    rw [hx.raw, ← hy.raw, htext', hsuffix] at htext
    exact (List.append_cancel_right htext).symm
  rw [hdigits, hvalue', Option.some.injEq] at hvalue
  have hraw := hx.raw.trans hy.raw.symm
  have hspan := hx.span.trans hy.span.symm
  cases x
  cases y
  simp_all

theorem not_isNumeral_boolean (truth : Bool) :
    ¬ IsNumeral (if truth then "true" else "false") := by
  have hread : Scan.suffixedNumber (if truth then "true" else "false").toList = none := by
    cases truth <;> decide
  rw [Scan.isNumeral_iff, hread]
  rintro ⟨_, ⟨⟩⟩

theorem not_isNumeral_run : ¬ IsNumeral "run" := by
  have hread : Scan.suffixedNumber "run".toList = none := by decide
  rw [Scan.isNumeral_iff, hread]
  rintro ⟨_, ⟨⟩⟩

/-- The rule leaves no choice. -/
theorem WordsAt.unique {arguments' : List Argument} (h : WordsAt offset words arguments)
    (h' : WordsAt offset words arguments') : arguments = arguments' := by
  induction h generalizing arguments' with
  | nil => cases h'; rfl
  | coordinates hx hy hz _ ih =>
      cases h' with
      | coordinates hx' hy' hz' h' =>
          obtain rfl := hx.unique hx'
          obtain rfl := hy.unique hy'
          obtain rfl := hz.unique hz'
          rw [ih h']
      | number htriple _ _ =>
          exact absurd (Scan.startsTriple_of_isNumeral hx.isNumeral hy.isNumeral hz.isNumeral)
            htriple
      | boolean hword _ => exact absurd (hword ▸ hx.isNumeral) (not_isNumeral_boolean _)
      | run => exact absurd hx.isNumeral not_isNumeral_run
      | keyword hnot => exact absurd hx.isNumeral hnot
  | number htriple hnumber _ ih =>
      cases h' with
      | coordinates hx hy hz _ =>
          exact absurd (Scan.startsTriple_of_isNumeral hx.isNumeral hy.isNumeral hz.isNumeral)
            htriple
      | number _ hnumber' h' =>
          obtain rfl := hnumber.unique hnumber'
          rw [ih h']
      | boolean hword _ => exact absurd (hword ▸ hnumber.isNumeral) (not_isNumeral_boolean _)
      | run => exact absurd hnumber.isNumeral not_isNumeral_run
      | keyword hnot => exact absurd hnumber.isNumeral hnot
  | @boolean _ _ _ _ truth hword _ ih =>
      cases h' with
      | coordinates hx => exact absurd (hword ▸ hx.isNumeral) (not_isNumeral_boolean _)
      | number _ hnumber _ =>
          exact absurd (hword ▸ hnumber.isNumeral) (not_isNumeral_boolean _)
      | @boolean _ _ _ _ truth' hword' h' =>
          obtain rfl : truth = truth' := by
            rw [hword] at hword'
            cases truth <;> cases truth' <;> first | rfl | exact absurd hword' (by decide)
          rw [ih h']
      | run => cases truth <;> exact absurd hword (by decide)
      | keyword _ htrue hfalse => cases truth <;> contradiction
  | run hlower hstop _ ih =>
      cases h' with
      | coordinates hx => exact absurd hx.isNumeral not_isNumeral_run
      | number _ hnumber _ => exact absurd hnumber.isNumeral not_isNumeral_run
      | @boolean _ _ _ _ truth hword => cases truth <;> exact absurd hword (by decide)
      | run _ hstop' h' => rw [ih h', hstop, hstop']
      | keyword _ _ _ hrun => exact absurd hlower (hrun rfl _ rfl)
  | keyword hnot htrue hfalse hrun _ ih =>
      cases h' with
      | coordinates hx => exact absurd hx.isNumeral hnot
      | number _ hnumber _ => exact absurd hnumber.isNumeral hnot
      | @boolean _ _ _ _ truth hword => cases truth <;> contradiction
      | run hlower => exact absurd hlower (hrun rfl _ rfl)
      | keyword _ _ _ _ h' => rw [ih h']

/-- None of the arguments is interpolated. -/
theorem WordsAt.any_isInterpolated (h : WordsAt offset words arguments) :
    arguments.any Parser.isInterpolated = false := by
  induction h with
  | nil | run => rfl
  | coordinates _ _ _ _ ih => exact ih
  | number _ _ _ ih => exact ih
  | boolean _ _ ih => exact ih
  | keyword _ _ _ _ _ ih => exact ih

/-! ### The word at the cursor -/

variable {c d : Cursor} {tail : List Char} {suffix : Option Char}

namespace Cursor

/-- Where the word ends that stands behind a blank. -/
theorem word_stop (hrest : c.rest = ' ' :: (word.toList ++ tail)) :
    ((c.advance 1).advance word.toList.length).offset = (wordSpan c.offset word).stop := by
  have hword : (c.advance 1).rest = word.toList ++ tail := advance_one_of_cons hrest
  rw [advance_offset (length_le_of_append hword), hword, List.take_left,
    byteWidth_eq_utf8ByteSize, advance_one_offset hrest rfl, wordSpan_stop]

/-- The span of the next word. -/
theorem word_span (hrest : c.rest = ' ' :: (word.toList ++ tail)) :
    (c.advance 1).spanTo ((c.advance 1).advance word.toList.length) = wordSpan c.offset word := by
  rw [spanTo, word_stop hrest, advance_one_offset hrest rfl]
  rfl

/-- The word behind a blank as a run of text. -/
theorem word_textRun (hrest : c.rest = ' ' :: (word.toList ++ tail)) :
    (c.advance 1).textRun word.toList.length = ⟨word, wordSpan c.offset word⟩ := by
  have hword : (c.advance 1).rest = word.toList ++ tail := advance_one_of_cons hrest
  rw [textRun, textBetween_of_append hword, word_span hrest]

/-- The word behind a blank as a number. -/
theorem word_number (hrest : c.rest = ' ' :: (word.toList ++ tail))
    (h : WritesNumber word suffix) :
    NumberAt c.offset word ((c.advance 1).number word.toList.length suffix) := by
  have hword : (c.advance 1).rest = word.toList ++ tail := advance_one_of_cons hrest
  obtain ⟨digits, hdigits, hletter, heq⟩ := h
  obtain ⟨decimal, hdecimal⟩ := Option.isSome_iff_exists.mp hdigits.ofChars?_isSome
  have htake : (c.advance 1).rest.take
      (if suffix.isSome then word.toList.length - 1 else word.toList.length) = digits := by
    rw [hword, heq]
    cases suffix with
    | none => simp
    | some letter => simp
  refine ⟨⟨digits, hdigits, hletter, ?_, ?_⟩, textBetween_of_append hword, word_span hrest⟩
  · rw [number, textBetween_of_append hword]
    exact heq
  · rw [number, htake, Binary64.ofChars?, hdecimal]
    rfl

/-- A word that is a number, as a part of coordinates. -/
theorem word_part {n : Nat} (hdrop : c.rest.drop n = word.toList ++ tail)
    (hrow : Row Scan.isWordChar word.toList) (h : WritesNumber word suffix) :
    c.coordinatePart (n, n + word.toList.length) =
      ((c.advance n).number word.toList.length suffix).absolute := by
  obtain ⟨x, rest, hword⟩ := List.exists_cons_of_ne_nil hrow.1
  have hmark : ∀ y ∈ word.toList.head?, ¬ (y = '~' ∨ y = '^') := by
    intro y hy
    have hclass := hrow.2 y (List.mem_of_mem_head? hy)
    exact not_or.mpr ⟨Scan.ne_of_class hclass (by decide), Scan.ne_of_class hclass (by decide)⟩
  have htake : (c.advance n).rest.take
        (if suffix.isSome then word.toList.length - 1 else word.toList.length) =
      word.toList.take
        (if suffix.isSome then word.toList.length - 1 else word.toList.length) := by
    rw [advance_rest, hdrop]
    exact List.take_append_of_le_length (by split_ifs <;> omega)
  rw [coordinatePart, Nat.add_sub_cancel_left, hdrop, List.take_left,
    Parser.coordinatePart_plain hmark (Scan.suffixedNumber_eq_length_iff.mpr h)]
  rw [Number.absolute, number, htake, spanTo, advance_advance]
  rfl

end Cursor

namespace Parser

variable {s : Settings} {inside : Containers} {run : Cursor → Parser RunClause} {inMacro : Bool}

/-- No mark tells the kind of an argument that starts with a word. -/
theorem argument_row (hrest : c.rest = word.toList ++ tail)
    (hrow : Row Scan.isWordChar word.toList) (htail : WordEnd tail) :
    argument inside run inMacro s c = plainArgument inside run s c := by
  obtain ⟨x, rest, hword⟩ := List.exists_cons_of_ne_nil hrow.1
  have hx : Scan.isWordChar x := hrow.2 x (hword ▸ List.mem_cons_self)
  have hpeek : ∀ {y}, Scan.isWordChar y = false → c.peek ≠ some y := by
    intro y hy heq
    rw [Cursor.peek_of_cons (by rw [hrest, hword]; rfl), Option.some.injEq] at heq
    rw [heq, hy] at hx
    cases hx
  rw [argument, bind_done here_run, hrest, Scan.startsInterpolated_row hrow htail,
    if_neg Bool.false_ne_true]
  refine congrFun (congrFun ?_ s) c
  split
  iterate 8
    · rename_i h
      exact absurd h (hpeek (by decide))
  · rfl

section Words

variable (hrest : c.rest = word.toList ++ spaced words)
  (hwords : ∀ w ∈ word :: words, Row Scan.isWordChar w.toList)

include hrest hwords

/-- Three numerals are coordinates. -/
theorem argument_coordinates {ranges : Triple (Nat × Nat)}
    (h : Scan.coordinates c.rest = some ranges) :
    argument inside run inMacro s c =
      .done (.coordinates (c.coordinates ranges)) [] (c.advance ranges.z.2) := by
  rw [argument_row hrest (hwords word List.mem_cons_self) (wordEnd_spaced words), plainArgument,
    bind_done here_run, h, Option.isSome_some, if_pos rfl, bind_done (coordinates_run h)]
  rfl

/-- Where no coordinates start, the longer of a number and a word decides. -/
theorem argument_of_not_startsTriple (htriple : ¬ StartsTriple (word :: words)) :
    argument inside run inMacro s c =
      (match Scan.wholeNumber c.rest with
      | some (count, suffix) => Argument.number <$> number count suffix
      | none => wordArgument inside run word.toList.length) s c := by
  have hrow := hwords word List.mem_cons_self
  have hend := wordEnd_spaced words
  have hcoordinates : Scan.coordinates c.rest = none := by
    rw [Option.eq_none_iff_forall_not_mem]
    intro ranges hranges
    exact htriple (Scan.startsTriple_of_coordinates hwords (hrest ▸ hranges))
  have hspace : Scan.resourceNamespace c.rest = none := by
    rw [hrest, Scan.resourceNamespace_row_wordEnd hrow hend]
  have hword : Scan.word c.rest = some word.toList.length := by
    rw [hrest, Scan.word_row hrow hend]
  rw [argument_row hrest hrow hend, plainArgument, bind_done here_run, hcoordinates,
    Option.isSome_none, if_neg Bool.false_ne_true, hspace, hword]
  rcases Scan.wholeNumber c.rest with _ | ⟨count, suffix⟩
  · rfl
  · rfl

/-- A numeral that starts no coordinates is a number. -/
theorem argument_number (htriple : ¬ StartsTriple (word :: words))
    (h : WritesNumber word suffix) :
    argument inside run inMacro s c =
      .done (.number (c.number word.toList.length suffix)) []
        (c.advance word.toList.length) := by
  have hnumber : Scan.wholeNumber c.rest = some (word.toList.length, suffix) := by
    rw [hrest, Scan.wholeNumber_of_writesNumber (hwords word List.mem_cons_self)
      (wordEnd_spaced words) h]
  rw [argument_of_not_startsTriple hrest hwords htriple, hnumber]
  exact bind_done (number_run hnumber)

/-- Any other word tells itself what it is. -/
theorem argument_word (h : ¬ IsNumeral word) :
    argument inside run inMacro s c =
      (if word = "true" then Pure.pure (.boolean ⟨true, (c.textRun word.toList.length).span⟩)
      else if word = "false" then
        Pure.pure (.boolean ⟨false, (c.textRun word.toList.length).span⟩)
      else if word = "run" ∧ startsSubcommand (spaced words) then Argument.run <$> run c
      else Pure.pure (.keyword (c.textRun word.toList.length)) : Parser Argument) s
        (c.advance word.toList.length) := by
  have htriple : ¬ StartsTriple (word :: words) := fun htriple =>
    h (htriple.2 word (by simp))
  have htext : (c.textRun word.toList.length).text = word := Cursor.textBetween_of_append hrest
  have hdrop : c.rest.drop word.toList.length = spaced words := by rw [hrest, List.drop_left]
  have hnumber : Scan.wholeNumber c.rest = none := by
    rw [hrest, Scan.wholeNumber_of_not_isNumeral (hwords word List.mem_cons_self)
      (wordEnd_spaced words) h]
  rw [argument_of_not_startsTriple hrest hwords htriple, hnumber]
  dsimp only
  rw [wordArgument, bind_done here_run, hdrop,
    Scan.startsPathSuffix_wordEnd (wordEnd_spaced words), if_neg Bool.false_ne_true,
    bind_done (textRun_run (Cursor.length_le_of_append hrest))]
  refine congrFun (congrFun ?_ s) _
  split
  · rename_i htrue
    rw [if_pos (htext.symm.trans htrue)]
  · rename_i hfalse
    have hne : word ≠ "true" := by
      rw [← htext, hfalse]
      decide
    rw [if_neg hne, if_pos (htext.symm.trans hfalse)]
  · rename_i hrun
    have hne : word ≠ "true" ∧ word ≠ "false" := by
      rw [← htext, hrun]
      decide
    rw [if_neg hne.1, if_neg hne.2]
    simp only [htext.symm.trans hrun, true_and]
    rfl
  · rename_i htrue hfalse hrun
    rw [htext] at htrue hfalse hrun
    rw [if_neg htrue, if_neg hfalse, if_neg fun h => hrun h.1]

end Words

end Parser

end Mcfunction
