import Mcfunction.Parser.Container
import Mcfunction.Proofs.Parser.Leaf
import Mcfunction.Tree.Printable

/-!
# Recognizers on Written Text

What the recognizers find in the text of a printable tree. A token ends where the character
after it cannot go on with it: no recognizer sees more of the text than that character.
-/

namespace Mcfunction

namespace Scan

variable {chars tail : List Char} {p : Char → Bool} {x : Char} {n : Nat}

/-! ### Up to a character that goes on with nothing -/

/-- A run ends at a character outside of its class. -/
theorem run_append_cons (hx : p x = false) : run p (chars ++ x :: tail) = run p chars := by
  induction chars with
  | nil => simp [run_cons, hx]
  | cons c chars ih => rw [List.cons_append, run_cons, run_cons, ih]

/-- A run takes all the characters if each is in its class. -/
theorem run_of_forall (h : ∀ c ∈ chars, p c) : run p chars = chars.length := by
  rw [run, List.takeWhile_eq_self_iff.mpr h]

/-- Where a run ends, there is a character of the text or the one after it. -/
theorem exists_drop_run (chars tail : List Char) (hx : p x = false) :
    ∃ y rest, (chars ++ x :: tail).drop (run p (chars ++ x :: tail)) = y :: rest ∧
      y ∈ chars ++ [x] := by
  rw [run_append_cons hx, List.drop_append_of_le_length (run_le_length p chars)]
  rcases hdrop : chars.drop (run p chars) with _ | ⟨y, rest⟩
  · exact ⟨x, tail, rfl, by simp⟩
  · have hy : y ∈ chars := List.mem_of_mem_drop (hdrop ▸ List.mem_cons_self)
    exact ⟨y, rest ++ x :: tail, rfl, by simp [hy]⟩

/-- A word ends at a character that is not for words. -/
theorem word_append_cons (hx : isWordChar x = false) : word (chars ++ x :: tail) = word chars := by
  rw [word, run?, run_append_cons hx, word, run?]

/-! ### Numbers -/

/-- Characters of numerals. -/
def isNumeralChar (c : Char) : Bool :=
  c.isDigit || c == '.' || c == '+' || c == '-' || c == 'e' || c == 'E'

/-- The characters outside of numerals, one by one. -/
theorem isNumeralChar_eq_false : isNumeralChar x = false ↔
    x.isDigit = false ∧ x ≠ '.' ∧ x ≠ '+' ∧ x ≠ '-' ∧ x ≠ 'e' ∧ x ≠ 'E' := by
  simp [isNumeralChar, and_assoc]

/-- Digits are for numerals. -/
theorem isNumeralChar_of_isDigit (h : x.isDigit) : isNumeralChar x := by
  simp [isNumeralChar, h]

/-- The digits of a number end at what is neither a digit nor a point. -/
theorem decimal_append_cons (hdigit : x.isDigit = false) (hpoint : x ≠ '.') :
    decimal (chars ++ x :: tail) = decimal chars := by
  have hlen := run_le_length Char.isDigit chars
  simp only [decimal, run_append_cons hdigit, List.drop_append_of_le_length hlen]
  rcases chars.drop (run Char.isDigit chars) with _ | ⟨y, rest⟩
  · simp [hpoint]
  · by_cases hy : y = '.'
    · subst hy
      simp [run_append_cons hdigit]
    · simp [hy]

/-- The sign of an exponent is not looked for behind the text. -/
theorem exponentSign_append_cons (hplus : x ≠ '+') (hminus : x ≠ '-') :
    exponentSign (chars ++ x :: tail) = exponentSign chars := by
  rcases chars with _ | ⟨c, chars⟩
  · simp [exponentSign, hplus, hminus]
  · by_cases hc : c = '+' <;> by_cases hc' : c = '-' <;> simp [exponentSign, hc, hc']

/-- An exponent ends at a character that is not for numerals. -/
theorem exponent_append_cons (hx : isNumeralChar x = false) :
    exponent (chars ++ x :: tail) = exponent chars := by
  obtain ⟨hdigit, -, hplus, hminus, he, hE⟩ := isNumeralChar_eq_false.mp hx
  rcases chars with _ | ⟨c, chars⟩
  · simp [exponent, he, hE]
  · have hlen := (inline_exponentSign chars).le_length
    simp only [List.cons_append, exponent, exponentSign_append_cons hplus hminus,
      List.drop_append_of_le_length hlen, run_append_cons hdigit]

/-- No other character is taken for a minus sign. -/
theorem minus_append_cons (hminus : x ≠ '-') : minus (chars ++ x :: tail) = minus chars := by
  rcases chars with _ | ⟨c, chars⟩
  · simp [minus, hminus]
  · by_cases hc : c = '-' <;> simp [minus, hc]

/-- A number ends at a character that is not for numerals. -/
theorem number_append_cons (hx : isNumeralChar x = false) :
    number (chars ++ x :: tail) = number chars := by
  obtain ⟨hdigit, hpoint, -, hminus, -⟩ := isNumeralChar_eq_false.mp hx
  have hsign := inline_minus chars
  simp only [number, minus_append_cons hminus, List.drop_append_of_le_length hsign.le_length,
    decimal_append_cons hdigit hpoint]
  rcases hdecimal : decimal (chars.drop (minus chars)) with _ | mantissa
  · rfl
  · have hlen := (hsign.add (inline_decimal hdecimal)).le_length
    simp only [List.drop_append_of_le_length hlen, exponent_append_cons hx]

/-- A number ends at what is neither for numerals nor a type letter. -/
theorem suffixedNumber_append_cons (hx : isNumeralChar x = false)
    (hletter : isSuffixLetter x = false) :
    suffixedNumber (chars ++ x :: tail) = suffixedNumber chars := by
  rw [suffixedNumber, suffixedNumber, number_append_cons hx]
  rcases hnumber : number chars with _ | count
  · rfl
  · simp only [List.drop_append_of_le_length (inline_number hnumber).le_length]
    rcases chars.drop count with _ | ⟨y, rest⟩
    · simp [hletter]
    · rfl

/-- Type letters are not for numerals. -/
theorem isNumeralChar_of_isSuffixLetter (h : isSuffixLetter x) : isNumeralChar x = false := by
  unfold isSuffixLetter at h
  split at h <;> first | rfl | cases h

end Scan

/-! ### Numerals -/

section

variable {mantissa exponent digits : List Char}

open Scan

/-- A row with one more character in front. -/
theorem Row.cons {p : Char → Bool} {x : Char} {chars : List Char} (hx : p x)
    (h : ∀ c ∈ chars, p c) : Row p (x :: chars) :=
  ⟨List.cons_ne_nil _ _, List.forall_mem_cons.mpr ⟨hx, h⟩⟩

/-- A row with more characters behind it. -/
theorem Row.append {p : Char → Bool} {chars chars' : List Char} (h : Row p chars)
    (h' : ∀ c ∈ chars', p c) : Row p (chars ++ chars') :=
  ⟨List.append_ne_nil_of_left_ne_nil h.1 _, List.forall_mem_append.mpr ⟨h.2, h'⟩⟩

/-- A row of one class is a row of any that is wider. -/
theorem Row.mono {p q : Char → Bool} {chars : List Char} (h : Row p chars)
    (hpq : ∀ {c}, p c → q c) : Row q chars :=
  ⟨h.1, fun c hc => hpq (h.2 c hc)⟩

/-- A row is taken as a whole by a run of its class. -/
theorem Row.run_eq {p : Char → Bool} {chars : List Char} (h : Row p chars) :
    run p chars = chars.length :=
  run_of_forall h.2

/-- A row has at least one character. -/
theorem Row.length_pos {p : Char → Bool} {chars : List Char} (h : Row p chars) :
    0 < chars.length :=
  List.length_pos_iff.mpr h.1

/-- A row is read up to a character of another class. -/
theorem Row.run?_append_cons {p : Char → Bool} {chars tail : List Char} {x : Char}
    (h : Row p chars) (hx : p x = false) : run? p (chars ++ x :: tail) = some chars.length :=
  run?_eq_some.mpr ⟨by rw [run_append_cons hx, h.run_eq], h.length_pos⟩

/-- A mantissa is recognized as a whole. -/
theorem Mantissa.decimal_eq (h : Mantissa mantissa) :
    Scan.decimal mantissa = some mantissa.length := by
  cases h with
  | whole h => simp [Scan.decimal, h.run_eq, h.length_pos]
  | @decimal whole fraction hwhole hfraction =>
      have hrun : run Char.isDigit (whole ++ '.' :: fraction) = whole.length := by
        rw [run_append_cons (by decide), hwhole.run_eq]
      simp [Scan.decimal, hrun, hfraction.run_eq, hfraction.length_pos]
      omega
  | @fraction digits h =>
      have hrun : run Char.isDigit ('.' :: digits) = 0 := by
        rw [run_cons, if_neg (by decide)]
      simp [Scan.decimal, hrun, h.run_eq, h.length_pos]
      omega

/-- An exponent is recognized as a whole. -/
theorem Exponent.exponent_eq (h : Exponent exponent) :
    Scan.exponent exponent = exponent.length := by
  cases h with
  | absent => rfl
  | @present letter sign digits hletter hsign hdigits =>
      have hcount : exponentSign (sign ++ digits) = sign.length := by
        rcases hsign with rfl | rfl | rfl
        · obtain ⟨c, digits, rfl⟩ := List.exists_cons_of_ne_nil hdigits.1
          have hc := hdigits.2 c List.mem_cons_self
          have hplus : c ≠ '+' := by rintro rfl; exact absurd hc (by decide)
          have hminus : c ≠ '-' := by rintro rfl; exact absurd hc (by decide)
          simp [exponentSign, hplus, hminus]
        · rfl
        · rfl
      obtain ⟨k, hk⟩ := Nat.exists_eq_add_of_lt hdigits.length_pos
      simp [Scan.exponent, hletter, hcount, hdigits.run_eq, hk]
      omega

/-- An exponent does not go on with the mantissa before it. -/
theorem Mantissa.decimal_append (h : Mantissa mantissa) (hexponent : Exponent exponent) :
    Scan.decimal (mantissa ++ exponent) = some mantissa.length := by
  cases hexponent with
  | absent => rw [List.append_nil, h.decimal_eq]
  | present hletter hsign hdigits =>
      rcases hletter with rfl | rfl
      · rw [decimal_append_cons (by decide) (by decide), h.decimal_eq]
      · rw [decimal_append_cons (by decide) (by decide), h.decimal_eq]

/-- A mantissa starts with something other than a minus sign. -/
theorem Mantissa.exists_cons (h : Mantissa mantissa) :
    ∃ c rest, mantissa = c :: rest ∧ c ≠ '-' := by
  have hrow : ∀ (chars tail : List Char), Row Char.isDigit chars →
      ∃ c rest, chars ++ tail = c :: rest ∧ c ≠ '-' := by
    intro chars tail h
    obtain ⟨c, rest, rfl⟩ := List.exists_cons_of_ne_nil h.1
    refine ⟨c, rest ++ tail, rfl, ?_⟩
    rintro rfl
    exact absurd (h.2 '-' List.mem_cons_self) (by decide)
  cases h with
  | whole h => simpa using hrow _ [] h
  | decimal hwhole _ => exact hrow _ _ hwhole
  | fraction => exact ⟨_, _, rfl, by decide⟩

/-- No minus sign is found in front of a mantissa. -/
theorem Mantissa.minus_append (h : Mantissa mantissa) (tail : List Char) :
    Scan.minus (mantissa ++ tail) = 0 := by
  obtain ⟨c, rest, rfl, hc⟩ := h.exists_cons
  simp [Scan.minus, hc]

/-- A numeral is recognized as a whole. -/
theorem Numeral.number_eq (h : Numeral digits) : Scan.number digits = some digits.length := by
  cases h with
  | positive hmantissa hexponent =>
      simp [Scan.number, hmantissa.minus_append, hmantissa.decimal_append hexponent,
        hexponent.exponent_eq]
  | @negative mantissa exponent hmantissa hexponent =>
      have hdrop : ('-' :: (mantissa ++ exponent)).drop (1 + mantissa.length) = exponent := by
        rw [Nat.add_comm, List.drop_succ_cons, List.drop_left]
      simp [Scan.number, Scan.minus, hmantissa.decimal_append hexponent, hdrop,
        hexponent.exponent_eq]
      omega

/-- A mantissa is a row of characters for numerals. -/
theorem Mantissa.row (h : Mantissa mantissa) : Row isNumeralChar mantissa := by
  cases h with
  | whole h => exact h.mono isNumeralChar_of_isDigit
  | decimal hwhole hfraction =>
      refine (hwhole.mono isNumeralChar_of_isDigit).append ?_
      exact List.forall_mem_cons.mpr ⟨rfl, (hfraction.mono isNumeralChar_of_isDigit).2⟩
  | fraction h =>
      exact .cons rfl (h.mono isNumeralChar_of_isDigit).2

/-- The characters of an exponent are for numerals. -/
theorem Exponent.forall_isNumeralChar (h : Exponent exponent) :
    ∀ c ∈ exponent, isNumeralChar c := by
  cases h with
  | absent => exact List.forall_mem_nil _
  | present hletter hsign hdigits =>
      rw [List.forall_mem_cons, List.forall_mem_append]
      refine ⟨?_, ?_, (hdigits.mono isNumeralChar_of_isDigit).2⟩
      · rcases hletter with rfl | rfl <;> rfl
      · rcases hsign with rfl | rfl | rfl
        · exact List.forall_mem_nil _
        · exact List.forall_mem_singleton.mpr rfl
        · exact List.forall_mem_singleton.mpr rfl

/-- A numeral is a row of characters for numerals. -/
theorem Numeral.row (h : Numeral digits) : Row isNumeralChar digits := by
  cases h with
  | positive hmantissa hexponent => exact hmantissa.row.append hexponent.forall_isNumeralChar
  | negative hmantissa hexponent =>
      exact .cons rfl (hmantissa.row.append hexponent.forall_isNumeralChar).2

end

namespace Scan

variable {chars text tail : List Char} {x : Char} {n : Nat}

/-! ### Scalars -/

/-- Characters of numbers, truth values and resource locations. -/
def isScalarChar (c : Char) : Bool :=
  isPathChar c || c == '+' || c == ':' || c == '/'

/-- The characters that end a value: the comma and the closing brackets. -/
def endsValue (c : Char) : Bool :=
  c == ',' || c == ']' || c == '}'

/-- Characters of words are characters of scalars. -/
theorem isScalarChar_of_isWordChar (h : isWordChar x) : isScalarChar x := by
  simp [isScalarChar, isPathChar, h]

/-- Characters of numerals are characters of scalars. -/
theorem isScalarChar_of_isNumeralChar (h : isNumeralChar x) : isScalarChar x := by
  simp only [isNumeralChar, Bool.or_eq_true, beq_iff_eq] at h
  rcases h with ((((h | rfl) | rfl) | rfl) | rfl) | rfl
  · simp [isScalarChar, isPathChar, isWordChar, Char.isAlphanum, h]
  iterate 5 decide

/-- Type letters are characters of scalars. -/
theorem isScalarChar_of_isSuffixLetter (h : isSuffixLetter x) : isScalarChar x := by
  unfold isSuffixLetter at h
  split at h <;> first | rfl | cases h

/-- A character that is not in a class is no character of it. -/
theorem ne_of_class {p : Char → Bool} {y : Char} (hx : p x) (hy : p y = false) : x ≠ y := by
  rintro rfl
  rw [hx] at hy
  cases hy

/-- No quote comes first where a scalar stands. -/
theorem startsQuoted_append_cons (htext : Row isScalarChar text) :
    startsQuoted (text ++ x :: tail) = false := by
  obtain ⟨c, rest, rfl⟩ := List.exists_cons_of_ne_nil htext.1
  have hc := htext.2 c List.mem_cons_self
  have hdouble : c ≠ '"' := ne_of_class hc (by decide)
  have hsingle : c ≠ '\'' := ne_of_class hc (by decide)
  simp [startsQuoted, hdouble, hsingle]

/-- Text without a `$` is not interpolated. -/
theorem startsInterpolated_append_cons {inKey : Bool} (htext : Row isScalarChar text)
    (hlead : isLeadChar inKey x = false) (hx : x ≠ '$') :
    startsInterpolated inKey (text ++ x :: tail) = false := by
  obtain ⟨y, rest', hdrop, hy⟩ := exists_drop_run text tail hlead
  have hdollar : y ≠ '$' := by
    rcases List.mem_append.mp hy with hy | hy
    · exact ne_of_class (htext.2 y hy) (by decide)
    · rwa [List.mem_singleton.mp hy]
  rw [startsInterpolated, startsQuoted_append_cons htext, if_neg Bool.false_ne_true, hdrop]
  simp [startsInterpolation, hdollar]

/-- There is no spacing before a character that is neither a blank nor a backslash. -/
theorem trivia_cons_eq_zero (hblank : isBlank x = false) (hslash : x ≠ '\\') :
    trivia (x :: tail) = 0 := by
  refine repeated_of_step_zero ?_
  simp [triviaStep, hblank, continuation, hslash]

/-- What ends a value, character by character. -/
theorem endsValue_iff : endsValue x ↔ x = ',' ∨ x = ']' ∨ x = '}' := by
  simp [endsValue, or_assoc]

/-- What is no operator, character by character. -/
theorem isOperator_eq_false : isOperator x = false ↔ x ≠ '=' ∧ x ≠ '~' ∧ x ≠ ':' := by
  unfold isOperator PairOperator.ofChar?
  split <;> simp_all

/-- Neither trivia nor an operator. -/
structure Inert (c : Char) : Prop where
  /-- It is no blank. -/
  blank : isBlank c = false
  /-- It starts no line continuation. -/
  slash : c ≠ '\\'
  /-- It joins no key and value. -/
  operator : isOperator c = false

/-- What ends a value is neither trivia nor an operator. -/
theorem Inert.of_endsValue (h : endsValue x) : Inert x := by
  rcases endsValue_iff.mp h with rfl | rfl | rfl <;> exact ⟨rfl, by decide, rfl⟩

/-- Characters of scalars are no blanks. -/
theorem isBlank_of_isScalarChar (h : isScalarChar x) : isBlank x = false := by
  have hspace : x ≠ ' ' := ne_of_class h (by decide)
  have htab : x ≠ '\t' := ne_of_class h (by decide)
  have hreturn : x ≠ '\r' := ne_of_class h (by decide)
  simp [isBlank, hspace, htab, hreturn]

/-- Characters of scalars do not end a value. -/
theorem endsValue_of_isScalarChar (h : isScalarChar x) : endsValue x = false := by
  have hcomma : x ≠ ',' := ne_of_class h (by decide)
  have hsquare : x ≠ ']' := ne_of_class h (by decide)
  have hcurly : x ≠ '}' := ne_of_class h (by decide)
  simp [endsValue, hcomma, hsquare, hcurly]

/-- Apart from the colon, characters of scalars are neither trivia nor operators. -/
theorem Inert.of_isScalarChar (h : isScalarChar x) (hcolon : x ≠ ':') : Inert x where
  blank := isBlank_of_isScalarChar h
  slash := ne_of_class h (by decide)
  operator :=
    isOperator_eq_false.mpr ⟨ne_of_class h (by decide), ne_of_class h (by decide), hcolon⟩

/-- What stands after the word at the front of a number or a truth value. -/
theorem exists_drop_word (htext : Row isScalarChar text) (hcolon : ':' ∉ text)
    (hx : endsValue x) (hword : word (text ++ x :: tail) = some n) :
    ∃ y rest, (text ++ x :: tail).drop n = y :: rest ∧ Inert y := by
  have hclass : isWordChar x = false := by
    rcases endsValue_iff.mp hx with rfl | rfl | rfl <;> rfl
  obtain ⟨rfl, -⟩ := run?_eq_some.mp hword
  obtain ⟨y, rest, hdrop, hy⟩ := exists_drop_run text tail hclass
  refine ⟨y, rest, hdrop, ?_⟩
  rcases List.mem_append.mp hy with hy | hy
  · exact .of_isScalarChar (htext.2 y hy) (ne_of_mem_of_not_mem hy hcolon)
  · rw [List.mem_singleton.mp hy]
    exact .of_endsValue hx

/-- What ends a value does not stand before an interpolation. -/
theorem isLeadChar_of_endsValue {inKey : Bool} (h : endsValue x) : isLeadChar inKey x = false := by
  rcases endsValue_iff.mp h with rfl | rfl | rfl <;> cases inKey <;> rfl

/-- No scalar is interpolated text. -/
theorem startsInterpolated_scalar {inKey : Bool} (htext : Row isScalarChar text)
    (hx : endsValue x) : startsInterpolated inKey (text ++ x :: tail) = false :=
  startsInterpolated_append_cons htext (isLeadChar_of_endsValue hx) (ne_of_class hx (by decide))

/-- A number or a truth value is not the key of a pair. -/
theorem startsPair_scalar (htext : Row isScalarChar text) (hcolon : ':' ∉ text)
    (hx : endsValue x) : startsPair (text ++ x :: tail) = false := by
  have hkey : pairKey (text ++ x :: tail) = word (text ++ x :: tail) := by
    simp [pairKey, startsQuoted_append_cons htext, startsInterpolated_scalar htext hx]
  rw [startsPair, hkey]
  rcases hword : word (text ++ x :: tail) with _ | n
  · rfl
  · obtain ⟨y, rest, hdrop, hy⟩ := exists_drop_word htext hcolon hx hword
    simp [hdrop, trivia_cons_eq_zero hy.blank hy.slash, hy.operator]

/-- A number or a truth value does not start with a namespace. -/
theorem resourceNamespace_scalar (htext : Row isScalarChar text) (hcolon : ':' ∉ text)
    (hx : endsValue x) : resourceNamespace (text ++ x :: tail) = none := by
  rw [resourceNamespace]
  rcases hword : word (text ++ x :: tail) with _ | n
  · rfl
  · obtain ⟨y, rest, hdrop, hy⟩ := exists_drop_word htext hcolon hx hword
    have hne : y ≠ ':' := (isOperator_eq_false.mp hy.operator).2.2
    simp [hdrop, hne]

/-- A numeral and its type letter are read up to what ends the value. -/
theorem wholeNumber_numeral {digits : List Char} {suffix : Option Char} (hdigits : Numeral digits)
    (hsuffix : ∀ letter ∈ suffix, isSuffixLetter letter) (hx : endsValue x) :
    wholeNumber (digits ++ suffix.toList ++ x :: tail) =
      some ((digits ++ suffix.toList).length, suffix) := by
  have hends : isNumeralChar x = false ∧ isSuffixLetter x = false ∧ isWordChar x = false := by
    rcases endsValue_iff.mp hx with rfl | rfl | rfl <;> exact ⟨rfl, rfl, rfl⟩
  have hsuffixed : suffixedNumber (digits ++ suffix.toList) =
      some ((digits ++ suffix.toList).length, suffix) := by
    rcases suffix with _ | letter
    · simp [suffixedNumber, hdigits.number_eq]
    · have hletter := hsuffix letter rfl
      have hnumber : number (digits ++ [letter]) = some digits.length := by
        rw [number_append_cons (isNumeralChar_of_isSuffixLetter hletter), hdigits.number_eq]
      simp [suffixedNumber, hnumber, hletter]
  rw [wholeNumber, suffixedNumber_append_cons hends.1 hends.2.1, hsuffixed,
    word_append_cons hends.2.2]
  rcases hword : word (digits ++ suffix.toList) with _ | count
  · rfl
  · exact if_pos (inline_word hword).le_length

/-! ### Resource locations -/

/-- A word with a colon after it is a namespace. -/
theorem resourceNamespace_row {space : List Char} (hspace : Row isWordChar space) :
    resourceNamespace (space ++ ':' :: tail) = some space.length := by
  have hnumber : ((suffixedNumber space).map Prod.fst).getD 0 ≤ space.length := by
    rcases h : suffixedNumber space with _ | ⟨count, suffix⟩
    · exact Nat.zero_le _
    · exact (inline_suffixedNumber h).le_length
  have hword : word (space ++ ':' :: tail) = some space.length :=
    hspace.run?_append_cons (by decide)
  rw [resourceNamespace, hword, suffixedNumber_append_cons (by decide) (by decide)]
  dsimp only
  rw [List.drop_left]
  exact if_pos (by simpa using hnumber)

/-- A slash and a path after it belong to the path before them. -/
theorem repeated_segmentStep_slash (h : path chars = some n) :
    repeated segmentStep 0 ('/' :: chars) = n + 1 := by
  rw [path] at h
  rcases hrun : run? isPathChar chars with _ | first
  · simp [hrun] at h
  · obtain ⟨hfirst, hpos⟩ := run?_eq_some.mp hrun
    simp only [hrun, Option.some.injEq] at h
    have hstep : segmentStep ('/' :: chars) = first + 1 := by
      obtain ⟨k, rfl⟩ : ∃ k, first = k + 1 := ⟨first - 1, by omega⟩
      simp only [segmentStep, hfirst]
      omega
    have hlen := run_le_length isPathChar chars
    rw [repeated_of_step_pos (by omega) (by rw [hstep, List.length_cons]; omega), hstep,
      List.drop_succ_cons]
    omega

/-- The path of a resource is recognized up to what follows it. -/
theorem path_of_resourcePath {written : List Char} (h : ResourcePath written)
    (hclass : isPathChar x = false) (hslash : x ≠ '/') :
    path (written ++ x :: tail) = some written.length := by
  induction h with
  | @last segment hsegment =>
      have hrun : run? isPathChar (segment ++ x :: tail) = some segment.length :=
        hsegment.run?_append_cons hclass
      have hstop : repeated segmentStep 0 (x :: tail) = 0 :=
        repeated_of_step_zero (by simp [segmentStep, hslash])
      simp [path, hrun, hstop]
  | @more segment rest hsegment _ ih =>
      have hrun : run? isPathChar (segment ++ '/' :: (rest ++ x :: tail)) = some segment.length :=
        hsegment.run?_append_cons (by decide)
      simp [path, hrun, repeated_segmentStep_slash ih]

/-! ### Strings -/

section

variable {quote : Char} {body : List Char}

/-- What stands between quotes does not start with a line feed. -/
theorem append_ne_newline (h : QuotedBody quote body) (hquote : quote ≠ '\n') (rest : List Char) :
    body ++ quote :: tail ≠ '\n' :: rest := by
  intro heq
  cases h with
  | nil => exact hquote (List.cons.inj heq).1
  | plain _ _ _ hline _ => exact hline (List.cons.inj heq).1
  | escape => exact absurd (List.cons.inj heq).1 (by decide)

/-- The body of a string is read up to the closing quote. -/
theorem quotedFrom_body {before : Nat} (h : QuotedBody quote body)
    (hquote : quote = '"' ∨ quote = '\'') :
    quotedFrom (· == quote) before false 0 (body ++ quote :: tail) =
      .ok ⟨before + body.length, false⟩ := by
  induction h generalizing before with
  | nil => rcases hquote with rfl | rfl <;> simp [quotedFrom, startsInterpolation]
  | plain hquoted hslash hdollar hline _ ih =>
      simp [quotedFrom, startsInterpolation, hquoted, hslash, hdollar, hline, ih]
      omega
  | @escape c chars hline hchars ih =>
      have hne : quote ≠ '\n' := by rcases hquote with rfl | rfl <;> decide
      have hnext : ∀ rest, c :: (chars ++ quote :: tail) ≠ '\n' :: rest :=
        fun _ heq => hline (List.cons.inj heq).1
      have hreturn : ∀ rest, c :: (chars ++ quote :: tail) ≠ '\r' :: '\n' :: rest :=
        fun rest heq => append_ne_newline hchars hne rest (List.cons.inj heq).2
      rw [List.cons_append, List.cons_append,
        quotedFrom_escape (List.cons_ne_nil _ _) hnext hreturn, quotedFrom, ih]
      simp
      omega

/-- A written string is read as a whole. -/
theorem quoted_body (h : QuotedBody quote body) (hquote : quote = '"' ∨ quote = '\'') :
    quoted (quote :: (body ++ quote :: tail)) = .ok ⟨body.length + 1, false⟩ := by
  rw [quoted, quotedFrom_body h hquote, Nat.add_comm]

/-- A quoted string is not taken for a bare macro argument. -/
theorem startsInterpolated_body {inKey : Bool} (h : QuotedBody quote body)
    (hquote : quote = '"' ∨ quote = '\'') :
    startsInterpolated inKey (quote :: (body ++ quote :: tail)) = false := by
  have hstart : startsQuoted (quote :: (body ++ quote :: tail)) := by
    rcases hquote with rfl | rfl <;> rfl
  rw [startsInterpolated, if_pos hstart, quoted_body h hquote]

/-! ### Keys -/

/-- The sign of an operator is one. -/
theorem isOperator_char (operator : PairOperator) : isOperator operator.char := by
  cases operator <;> rfl

/-- After a string, the next character tells whether it is the key of a pair. -/
theorem startsPair_body (h : QuotedBody quote body) (hquote : quote = '"' ∨ quote = '\'')
    (hblank : isBlank x = false) (hslash : x ≠ '\\') :
    startsPair (quote :: (body ++ quote :: x :: tail)) = isOperator x := by
  have hstart : startsQuoted (quote :: (body ++ quote :: x :: tail)) := by
    rcases hquote with rfl | rfl <;> rfl
  have hkey : pairKey (quote :: (body ++ quote :: x :: tail)) = some (body.length + 2) := by
    rw [pairKey, if_pos hstart, quoted_body h hquote]
    rfl
  have hdrop : (quote :: (body ++ quote :: x :: tail)).drop (body.length + 2) = x :: tail := by
    simp [List.drop_append]
  rw [startsPair, hkey]
  dsimp only
  rw [hdrop, trivia_cons_eq_zero hblank hslash]
  rfl

/-- A word with an operator after it is the key of a pair. -/
theorem startsPair_row {word : List Char} (h : Row isWordChar word) (operator : PairOperator) :
    startsPair (word ++ operator.char :: tail) := by
  have hends : isWordChar operator.char = false ∧ isLeadChar true operator.char = false ∧
      operator.char ≠ '$' ∧ isBlank operator.char = false ∧ operator.char ≠ '\\' := by
    cases operator <;> decide
  obtain ⟨hclass, hlead, hdollar, hblank, hslash⟩ := hends
  have hscalar := h.mono isScalarChar_of_isWordChar
  have hkey : pairKey (word ++ operator.char :: tail) = some word.length := by
    rw [pairKey, startsQuoted_append_cons hscalar, if_neg Bool.false_ne_true,
      startsInterpolated_append_cons hscalar hlead hdollar, if_neg Bool.false_ne_true]
    exact h.run?_append_cons hclass
  rw [startsPair, hkey]
  dsimp only
  rw [List.drop_left, trivia_cons_eq_zero hblank hslash]
  exact isOperator_char operator

end

end Scan

end Mcfunction
