import Mcfunction.Parser.Recovery
import Mcfunction.Proofs.Scan.Basic
import Mcfunction.Scan.Comment
import Mcfunction.Scan.Word

/-!
# The Reach of Tokens

Every token stands on one line, and so inside its statement; the chunks that recovery skips do
not leave the statement either. For strings, interpolations and numbers the last character is
told as well, since the text inside them is cut out one byte before their end.

Words, names, numbers and coordinates hold few characters besides, `isTokenChar`, `isSolidChar`
and `isLeafChar`; that none of them is a line break is a case of it.
-/

namespace Mcfunction.Scan

variable {chars : List Char} {m n : Nat}

/-! ### Words -/

/-- The characters of words, names and numbers. -/
def isTokenChar (c : Char) : Bool :=
  isPathChar c || c == '+'

/-- The characters of leaves that are neither quoted nor interpolated. -/
def isLeafChar (c : Char) : Bool :=
  isTokenChar c || isBlank c || c == '/' || c == ':' || c == '~' || c == '^'

/-- The characters of such leaves that are no blanks. -/
def isSolidChar (c : Char) : Bool :=
  isTokenChar c || c == '/' || c == ':' || c == '~' || c == '^'

/-- Characters of a resource path stand in tokens. -/
theorem isTokenChar_of_isPathChar {c : Char} (h : isPathChar c) : isTokenChar c := by
  simp [isTokenChar, h]

/-- Characters of a word stand in tokens. -/
theorem isTokenChar_of_isWordChar {c : Char} (h : isWordChar c) : isTokenChar c :=
  isTokenChar_of_isPathChar (by simp [isPathChar, h])

/-- Letters and digits stand in tokens. -/
theorem isTokenChar_of_isAlphanum {c : Char} (h : c.isAlphanum) : isTokenChar c :=
  isTokenChar_of_isWordChar (by simp [isWordChar, h])

/-- Digits stand in tokens. -/
theorem isTokenChar_of_isDigit {c : Char} (h : c.isDigit) : isTokenChar c :=
  isTokenChar_of_isAlphanum (by simp [Char.isAlphanum, h])

/-- Small letters stand in tokens. -/
theorem isTokenChar_of_isLower {c : Char} (h : c.isLower) : isTokenChar c :=
  have halpha : c.isAlpha := Bool.or_eq_true_iff.mpr (.inr h)
  isTokenChar_of_isAlphanum (by simp [Char.isAlphanum, halpha])

/-- Characters of tokens stand in leaves. -/
theorem isLeafChar_of_isTokenChar {c : Char} (h : isTokenChar c) : isLeafChar c := by
  simp [isLeafChar, h]

/-- Characters of tokens are no blanks, so they are solid. -/
theorem isSolidChar_of_isTokenChar {c : Char} (h : isTokenChar c) : isSolidChar c := by
  simp [isSolidChar, h]

/-- Solid characters stand in leaves. -/
theorem isLeafChar_of_isSolidChar {c : Char} (h : isSolidChar c) : isLeafChar c := by
  simp only [isSolidChar, isLeafChar, Bool.or_eq_true] at h ⊢
  rcases h with (((h | h) | h) | h) | h <;> simp [h]

/-- Blanks stand in leaves, between the parts of coordinates. -/
theorem isLeafChar_of_isBlank {c : Char} (h : isBlank c) : isLeafChar c := by
  simp [isLeafChar, h]

/-- A word is made of characters of tokens. -/
theorem taken_word (h : word chars = some n) : Taken isTokenChar chars n :=
  (taken_run? h).mono fun _ => isTokenChar_of_isWordChar

/-- A word is on one line. -/
theorem inline_word (h : word chars = some n) : Inline chars n :=
  (taken_word h).inline (by decide)

/-- A word is not empty. -/
theorem word_pos (h : word chars = some n) : 0 < n :=
  (run?_eq_some.mp h).2

/-- A step along a resource path takes solid characters. -/
theorem taken_segmentStep (chars : List Char) : Taken isSolidChar chars (segmentStep chars) := by
  unfold segmentStep
  split
  · rename_i segment
    have hrun : Taken isSolidChar segment (run isPathChar segment) :=
      (taken_run _ _).mono fun _ h => isSolidChar_of_isTokenChar (isTokenChar_of_isPathChar h)
    split
    · exact .zero _ _
    · rename_i k hk
      rw [hk] at hrun
      rw [Nat.add_comm]
      exact .cons (by decide) hrun
  · exact .zero _ _

/-- A resource path is made of solid characters. -/
theorem taken_path (h : path chars = some n) : Taken isSolidChar chars n := by
  unfold path at h
  split at h
  · cases h
  · rename_i first hfirst
    cases h
    exact ((taken_run? hfirst).mono
      fun _ h => isSolidChar_of_isTokenChar (isTokenChar_of_isPathChar h)).add
        (taken_repeated taken_segmentStep _)

/-- A step along a resource path is on one line. -/
theorem inline_segmentStep (chars : List Char) : Inline chars (segmentStep chars) :=
  (taken_segmentStep chars).inline (by decide)

/-- A command name is made of characters of tokens. -/
theorem taken_commandName (h : commandName chars = some n) : Taken isTokenChar chars n := by
  unfold commandName at h
  split at h
  · rename_i c tail
    split at h
    · rename_i hc
      cases h
      have hrun : Taken isTokenChar tail (run isNameChar tail) := by
        refine (taken_run _ _).mono fun x hx => isTokenChar_of_isWordChar ?_
        simp only [isNameChar, Bool.or_eq_true, beq_iff_eq] at hx
        simp only [isWordChar, Bool.or_eq_true, beq_iff_eq]
        exact .inl hx
      rw [Nat.add_comm]
      exact .cons (isTokenChar_of_isLower hc) hrun
    · cases h
  · cases h

/-- A command name is on one line. -/
theorem inline_commandName (h : commandName chars = some n) : Inline chars n :=
  (taken_commandName h).inline (by decide)

/-- A command name starts with a small letter. -/
theorem exists_of_commandName (h : commandName chars = some n) :
    ∃ x tail, chars = x :: tail ∧ x.isLower := by
  unfold commandName at h
  split at h
  · split at h
    · exact ⟨_, _, rfl, ‹_›⟩
    · cases h
  · cases h

/-- A command name is not empty. -/
theorem commandName_pos (h : commandName chars = some n) : 0 < n := by
  unfold commandName at h
  split at h
  · split at h <;> cases h
    omega
  · cases h

/-- A fake player is a hash with characters of tokens behind it. -/
theorem fakePlayer_taken (h : fakePlayer chars = some n) :
    ∃ name k, chars = '#' :: name ∧ n = k + 1 ∧ Taken isTokenChar name k := by
  unfold fakePlayer at h
  split at h
  · rename_i name
    obtain ⟨k, hk, rfl⟩ := Option.map_eq_some_iff.mp h
    exact ⟨name, k, rfl, Nat.add_comm 1 k,
      (taken_run? hk).mono fun _ => isTokenChar_of_isPathChar⟩
  · cases h

/-- A fake player is a hash with a name behind it on the same line. -/
theorem fakePlayer_eq_some (h : fakePlayer chars = some n) :
    ∃ name k, chars = '#' :: name ∧ n = k + 1 ∧ Inline name k := by
  obtain ⟨name, k, hchars, hn, htaken⟩ := fakePlayer_taken h
  exact ⟨name, k, hchars, hn, htaken.inline (by decide)⟩

/-- A namespace is a word with a colon after it. -/
theorem resourceNamespace_eq_some (h : resourceNamespace chars = some n) :
    word chars = some n ∧ ∃ tail, chars.drop n = ':' :: tail := by
  unfold resourceNamespace at h
  split at h
  · cases h
  · rename_i count hword
    simp only at h
    split at h
    · rename_i hcond
      cases h
      simp only [Bool.and_eq_true, beq_iff_eq, List.head?_eq_some_iff] at hcond
      exact ⟨hword, hcond.1⟩
    · cases h

/-- A resource location is made of solid characters, its colon among them. -/
theorem taken_location (hspace : resourceNamespace chars = some m)
    (hpath : path (chars.drop (m + 1)) = some n) : Taken isSolidChar chars (m + 1 + n) := by
  obtain ⟨hword, tail, hcolon⟩ := resourceNamespace_eq_some hspace
  have hword := (taken_word hword).mono fun _ => isSolidChar_of_isTokenChar
  refine (hword.add ?_).add (taken_path hpath)
  rw [hcolon]
  exact .one (by decide)

/-- A resource location is on one line. -/
theorem inline_location (hspace : resourceNamespace chars = some m)
    (hpath : path (chars.drop (m + 1)) = some n) : Inline chars (m + 1 + n) :=
  (taken_location hspace hpath).inline (by decide)

/-! ### Numbers -/

/-- An optional minus sign stands in tokens. -/
theorem taken_minus (chars : List Char) : Taken isTokenChar chars (minus chars) := by
  unfold minus
  split
  · exact .one (by decide)
  · exact .zero _ _

/-- A run of digits stands in tokens. -/
theorem taken_digits (chars : List Char) : Taken isTokenChar chars (run Char.isDigit chars) :=
  (taken_run _ _).mono fun _ => isTokenChar_of_isDigit

/-- A decimal is made of characters of tokens. -/
theorem taken_decimal (h : decimal chars = some n) : Taken isTokenChar chars n := by
  have hwhole := taken_digits chars
  unfold decimal at h
  simp only at h
  split at h
  · rename_i digits hdrop
    have hpoint :
        Taken isTokenChar (chars.drop (run Char.isDigit chars)) (run Char.isDigit digits + 1) := by
      rw [hdrop]
      exact .cons (by decide) (taken_digits digits)
    split at h
    · cases h
      rw [Nat.add_assoc, Nat.add_comm 1]
      exact hwhole.add hpoint
    · split at h <;> cases h
      exact hwhole
  · rw [if_neg (Nat.lt_irrefl 0)] at h
    split at h <;> cases h
    exact hwhole

/-- An optional minus sign is on one line. -/
theorem inline_minus (chars : List Char) : Inline chars (minus chars) :=
  (taken_minus chars).inline (by decide)

/-- A decimal is on one line. -/
theorem inline_decimal (h : decimal chars = some n) : Inline chars n :=
  (taken_decimal h).inline (by decide)

/-- A decimal is not empty. -/
theorem decimal_pos (h : decimal chars = some n) : 0 < n := by
  unfold decimal at h
  simp only at h
  split_ifs at h <;> cases h <;> omega

/-- An optional sign of an exponent stands in tokens. -/
theorem taken_exponentSign (chars : List Char) : Taken isTokenChar chars (exponentSign chars) := by
  unfold exponentSign
  split
  · exact .one (by decide)
  · exact .one (by decide)
  · exact .zero _ _

/-- An optional sign of an exponent is on one line. -/
theorem inline_exponentSign (chars : List Char) : Inline chars (exponentSign chars) :=
  (taken_exponentSign chars).inline (by decide)

/-- An exponent is made of characters of tokens. -/
theorem taken_exponent (chars : List Char) : Taken isTokenChar chars (exponent chars) := by
  unfold exponent
  split
  · rename_i c tail
    split
    · rename_i hc
      have hletter : isTokenChar c := by
        simp only [Bool.or_eq_true, beq_iff_eq] at hc
        rcases hc with rfl | rfl <;> decide
      have hrun := taken_digits (tail.drop (exponentSign tail))
      simp only
      split
      · exact .zero _ _
      · rename_i digits hdigits
        rw [hdigits] at hrun
        rw [Nat.add_assoc, Nat.add_comm 1]
        exact .cons hletter ((taken_exponentSign tail).add hrun)
    · exact .zero _ _
  · exact .zero _ _

/-- A number is made of characters of tokens. -/
theorem taken_number (h : number chars = some n) : Taken isTokenChar chars n := by
  unfold number at h
  simp only at h
  split at h
  · cases h
  · rename_i mantissa hmantissa
    cases h
    exact ((taken_minus chars).add (taken_decimal hmantissa)).add (taken_exponent _)

/-- A number is on one line. -/
theorem inline_number (h : number chars = some n) : Inline chars n :=
  (taken_number h).inline (by decide)

/-- A number is not empty. -/
theorem number_pos (h : number chars = some n) : 0 < n := by
  unfold number at h
  simp only at h
  split at h
  · cases h
  · rename_i mantissa hmantissa
    have := decimal_pos hmantissa
    cases h
    omega

/-- A type letter has one byte, and it is no line feed. -/
theorem isSuffixLetter_size {c : Char} (h : isSuffixLetter c) : c.utf8Size = 1 ∧ c ≠ '\n' := by
  unfold isSuffixLetter at h
  split at h <;> first | exact ⟨rfl, by decide⟩ | cases h

/-- A type letter stands in tokens. -/
theorem isTokenChar_of_isSuffixLetter {c : Char} (h : isSuffixLetter c) : isTokenChar c := by
  unfold isSuffixLetter at h
  split at h <;> first | rfl | cases h

/-- A number with its type letter is the number, and the letter if there is one. -/
theorem suffixedNumber_eq_some {suffix : Option Char}
    (h : suffixedNumber chars = some (n, suffix)) :
    number chars = some n ∧ suffix = none ∨
      ∃ m c tail, n = m + 1 ∧ suffix = some c ∧ number chars = some m ∧
        chars.drop m = c :: tail ∧ c.utf8Size = 1 ∧ c ≠ '\n' := by
  unfold suffixedNumber at h
  split at h
  · cases h
  · rename_i count hnumber
    split at h
    · rename_i c tail hdrop
      split at h
      · rename_i hc
        cases h
        exact .inr ⟨count, c, tail, rfl, rfl, hnumber, hdrop, isSuffixLetter_size hc⟩
      · cases h
        exact .inl ⟨hnumber, rfl⟩
    · cases h
      exact .inl ⟨hnumber, rfl⟩

/-- A number with its type letter is made of characters of tokens. -/
theorem taken_suffixedNumber {suffix : Option Char}
    (h : suffixedNumber chars = some (n, suffix)) : Taken isTokenChar chars n := by
  unfold suffixedNumber at h
  split at h
  · cases h
  · rename_i count hnumber
    split at h
    · rename_i c tail hdrop
      split at h
      · rename_i hc
        cases h
        exact (taken_number hnumber).add (hdrop ▸ .one (isTokenChar_of_isSuffixLetter hc))
      · cases h
        exact taken_number hnumber
    · cases h
      exact taken_number hnumber

/-- A number with its type letter is on one line. -/
theorem inline_suffixedNumber {suffix : Option Char}
    (h : suffixedNumber chars = some (n, suffix)) : Inline chars n :=
  (taken_suffixedNumber h).inline (by decide)

/-- A number with its type letter is not empty. -/
theorem suffixedNumber_pos {suffix : Option Char}
    (h : suffixedNumber chars = some (n, suffix)) : 0 < n := by
  rcases suffixedNumber_eq_some h with ⟨hnumber, -⟩ | ⟨m, c, tail, rfl, -⟩
  · exact number_pos hnumber
  · exact Nat.succ_pos m

/-- A number that is a whole word is a number with its type letter. -/
theorem wholeNumber_eq_some {suffix : Option Char} (h : wholeNumber chars = some (n, suffix)) :
    suffixedNumber chars = some (n, suffix) := by
  unfold wholeNumber at h
  split at h
  · rename_i heq _
    split at h <;> cases h
    exact heq
  · rename_i heq _
    cases h
    exact heq
  · cases h

/-- A coordinate part is one character and characters of numbers after it. -/
theorem coordinate_taken (h : coordinate chars = some n) :
    ∃ c offset k, chars = c :: offset ∧ n = k + 1 ∧ isSolidChar c ∧ Taken isTokenChar offset k := by
  unfold coordinate at h
  split at h
  · cases h
  · rename_i c offset
    split at h
    · rename_i hc
      have hmark : isSolidChar c := by
        simp only [Bool.or_eq_true, beq_iff_eq] at hc
        rcases hc with rfl | rfl <;> decide
      simp only at h
      split at h
      · rename_i mantissa hmantissa
        cases h
        exact ⟨c, offset, _, rfl, by omega, hmark,
          (taken_minus offset).add (taken_decimal hmantissa)⟩
      · cases h
        exact ⟨c, offset, 0, rfl, rfl, hmark, .zero _ _⟩
    · obtain ⟨⟨k, suffix⟩, hk, rfl⟩ := Option.map_eq_some_iff.mp h
      have htaken := taken_suffixedNumber hk
      rcases k with _ | k
      · exact absurd (suffixedNumber_pos hk) (Nat.lt_irrefl 0)
      · obtain ⟨hc, htaken⟩ := htaken.of_cons
        exact ⟨c, offset, k, rfl, rfl, isSolidChar_of_isTokenChar hc, htaken⟩

/-- A part of coordinates is made of solid characters. -/
theorem taken_coordinate (h : coordinate chars = some n) : Taken isSolidChar chars n := by
  obtain ⟨c, offset, k, rfl, rfl, hc, htaken⟩ := coordinate_taken h
  exact .cons hc (htaken.mono fun _ => isSolidChar_of_isTokenChar)

/-- A part of coordinates is on one line. -/
theorem inline_coordinate (h : coordinate chars = some n) : Inline chars n :=
  (taken_coordinate h).inline (by decide)

/-- A part of coordinates is not empty. -/
theorem coordinate_pos (h : coordinate chars = some n) : 0 < n := by
  unfold coordinate at h
  split at h
  · cases h
  · split at h
    · simp only at h
      split at h <;> cases h <;> omega
    · obtain ⟨⟨k, suffix⟩, hk, rfl⟩ := Option.map_eq_some_iff.mp h
      exact suffixedNumber_pos hk

/-- The parts of a coordinate triple and the blanks between them. -/
theorem taken_coordinates {parts : Triple (Nat × Nat)} (h : coordinates chars = some parts) :
    Taken isLeafChar chars parts.z.2 := by
  simp only [coordinates, Option.bind_eq_bind, Option.bind_eq_some_iff] at h
  obtain ⟨x, hx, gap, hgap, y, hy, gap', hgap', z, hz, h⟩ := h
  split at h
  · cases h
  · cases h
    have hblanks := (taken_run? hgap).mono fun _ => isLeafChar_of_isBlank
    have hblanks' := (taken_run? hgap').mono fun _ => isLeafChar_of_isBlank
    have hpart : ∀ {chars n}, coordinate chars = some n → Taken isLeafChar chars n :=
      fun h => (taken_coordinate h).mono fun _ => isLeafChar_of_isSolidChar
    exact ((((hpart hx).add hblanks).add (hpart hy)).add hblanks').add (hpart hz)

/-- The parts of a coordinate triple follow each other on one line. -/
theorem coordinates_eq_some {parts : Triple (Nat × Nat)} (h : coordinates chars = some parts) :
    parts.x.1 < parts.x.2 ∧ parts.x.2 ≤ parts.y.1 ∧ parts.y.1 < parts.y.2 ∧
      parts.y.2 ≤ parts.z.1 ∧ parts.z.1 < parts.z.2 ∧ Inline chars parts.z.2 := by
  have hline := (taken_coordinates h).inline (by decide)
  simp only [coordinates, Option.bind_eq_bind, Option.bind_eq_some_iff] at h
  obtain ⟨x, hx, gap, hgap, y, hy, gap', hgap', z, hz, h⟩ := h
  split at h
  · cases h
  · cases h
    have := coordinate_pos hy
    have := coordinate_pos hz
    refine ⟨coordinate_pos hx, ?_, ?_, ?_, ?_, hline⟩ <;> simp only <;> omega

/-! ### Interpolations and fragments -/

/-- An interpolation starts with a dollar sign and a parenthesis. -/
theorem startsInterpolation_iff :
    startsInterpolation chars ↔ ∃ body, chars = '$' :: '(' :: body := by
  unfold startsInterpolation
  split <;> simp_all

/-- The opening of an interpolation has two characters. -/
theorem openerCount_dollar (body : List Char) : openerCount ('$' :: body) = 2 := rfl

/-- An interpolation whose name goes up to its closing parenthesis. -/
theorem interpolation_of_closed {body tail : List Char}
    (hn : run (fun c => c != ')' && c != '\n') body = n) (hclose : body.drop n = ')' :: tail) :
    interpolation ('$' :: '(' :: body) = .ok (n + 3) := by
  simp only [interpolation, openerCount_dollar, List.drop_succ_cons, List.drop_zero, hn, hclose,
    Except.ok.injEq]
  omega

/-- Where an interpolation is not closed, the fault is all that its line has but a return at its
end. -/
theorem interpolation_of_open {body : List Char}
    (hn : run (fun c => c != ')' && c != '\n') body = n)
    (hopen : ∀ tail, body.drop n ≠ ')' :: tail) :
    interpolation ('$' :: '(' :: body) = .error ⟨.unterminatedInterpolation, 0,
      2 + (n - if (body.take n).getLast? == some '\r' then 1 else 0), Nat.zero_le _⟩ := by
  simp only [interpolation, openerCount_dollar, List.drop_succ_cons, List.drop_zero, hn]

/-- An interpolation ends with its closing parenthesis. -/
theorem interpolation_eq_ok (hstart : startsInterpolation chars)
    (h : interpolation chars = .ok n) :
    ∃ k tail, n = k + 3 ∧ Inline chars n ∧ chars.drop (k + 2) = ')' :: tail := by
  obtain ⟨body, rfl⟩ := startsInterpolation_iff.mp hstart
  unfold interpolation at h
  simp only [openerCount_dollar, List.drop_succ_cons, List.drop_zero] at h
  have hrun : Inline body (run (fun c => c != ')' && c != '\n') body) :=
    inline_run (by decide) body
  split at h
  · rename_i tail hdrop
    cases h
    refine ⟨run (fun c => c != ')' && c != '\n') body, tail, by omega, ?_, by simpa using hdrop⟩
    have hclose := hrun.add (hdrop ▸ .one (by decide) : Inline _ 1)
    rw [Nat.add_assoc, Nat.add_comm 2]
    exact .cons (by decide) (.cons (by decide) hclose)
  · cases h

/-- An interpolation is not empty and on one line. -/
theorem inline_interpolation (hstart : startsInterpolation chars)
    (h : interpolation chars = .ok n) : 0 < n ∧ Inline chars n := by
  obtain ⟨_, _, rfl, hline, -⟩ := interpolation_eq_ok hstart h
  exact ⟨Nat.succ_pos _, hline⟩

/-- The fault of an interpolation that is not closed lies in the text. -/
theorem interpolation_eq_error {error : Error} (hstart : startsInterpolation chars)
    (h : interpolation chars = .error error) : error.stop ≤ chars.length := by
  obtain ⟨body, rfl⟩ := startsInterpolation_iff.mp hstart
  unfold interpolation at h
  simp only [openerCount_dollar, List.drop_succ_cons, List.drop_zero] at h
  have hrun := run_le_length (fun c => c != ')' && c != '\n') body
  split at h
  · cases h
  · cases h
    simp only [List.length_cons]
    omega

/-- The fault of an interpolation that is not closed starts with the interpolation. -/
theorem interpolation_error_start {error : Error} (h : interpolation chars = .error error) :
    error.start = 0 := by
  unfold interpolation at h
  simp only at h
  split at h <;> cases h
  rfl

/-- A step of a fragment takes no character that ends fragments. -/
theorem taken_fragmentStep (inKey : Bool) (chars : List Char) :
    Taken (fun c => !endsFragment c) chars (fragmentStep inKey chars) := by
  unfold fragmentStep
  split
  · exact .zero _ _
  · rename_i c tail
    split
    · exact .zero _ _
    · rename_i hc
      refine .one ?_
      simp only [Bool.or_eq_true, not_or, Bool.not_eq_true] at hc
      rw [hc.1.1.1]
      rfl

/-- A step of a fragment is on one line. -/
theorem inline_fragmentStep (inKey : Bool) (chars : List Char) :
    Inline chars (fragmentStep inKey chars) :=
  (taken_fragmentStep inKey chars).inline rfl

/-- A fragment holds no character that ends fragments. -/
theorem taken_fragment {inKey : Bool} (h : fragment inKey chars = some n) :
    Taken (fun c => !endsFragment c) chars n := by
  unfold fragment at h
  split at h
  · cases h
  · rename_i count hcount
    cases h
    have htaken := taken_repeated (taken_fragmentStep inKey) chars
    rwa [hcount] at htaken

/-- A fragment is on one line. -/
theorem inline_fragment {inKey : Bool} (h : fragment inKey chars = some n) :
    Inline chars n :=
  (taken_fragment h).inline rfl

/-- A fragment is not empty. -/
theorem fragment_pos {inKey : Bool} (h : fragment inKey chars = some n) : 0 < n := by
  unfold fragment at h
  split at h <;> cases h
  omega

/-! ### Quoted strings -/

/-- A quoted string starts with a quote of either form. -/
theorem startsQuoted_iff :
    startsQuoted chars ↔ ∃ body, chars = '"' :: body ∨ chars = '\'' :: body := by
  unfold startsQuoted
  split <;> simp_all

/-- A backslash takes the character after it, unless a line break stands there. -/
theorem quotedFrom_escape {closes : Char → Bool} {before : Nat} {interpolated : Bool}
    (hnil : chars ≠ []) (hline : ∀ rest, chars ≠ '\n' :: rest)
    (hreturn : ∀ rest, chars ≠ '\r' :: '\n' :: rest) :
    quotedFrom closes before interpolated 0 ('\\' :: chars) =
      quotedFrom closes (before + 1) interpolated 1 chars := by
  rw [quotedFrom.eq_def]
  simp only [Char.reduceBEq, Bool.false_eq_true, if_false, if_true]

/-- Where a string goes on after an escape, an interpolation or another character. -/
theorem quotedFrom_pending {closes : Char → Bool} {before pending : Nat} {interpolated : Bool}
    (h : pending ≤ chars.length) :
    quotedFrom closes before interpolated pending chars =
      quotedFrom closes (before + pending) interpolated 0 (chars.drop pending) := by
  induction pending generalizing before chars with
  | zero => rfl
  | succ pending ih =>
      rcases chars with _ | ⟨c, chars⟩
      · simp at h
      · rw [quotedFrom, ih (by simpa using h), List.drop_succ_cons]
        congr 1
        omega

/-- The rest of a string stands on one line and ends with a character that closes it. -/
theorem quotedFrom_eq_ok {closes : Char → Bool} {before pending : Nat} {interpolated : Bool}
    {q : Quoted} (hpending : Inline chars pending)
    (h : quotedFrom closes before interpolated pending chars = .ok q) :
    ∃ k c tail, q.before = before + k ∧ Inline chars (k + 1) ∧ chars.drop k = c :: tail ∧
      closes c := by
  fun_induction quotedFrom closes before interpolated pending chars with
  | case1 => cases h
  | case2 before interpolated pending c chars ih =>
      obtain ⟨k, x, tail, hbefore, hline, hdrop, hx⟩ := ih hpending.of_cons h
      have hc : c ≠ '\n' := by
        rintro rfl
        exact hpending.newline_notMem (by simp)
      exact ⟨k + 1, x, tail, by omega, .cons hc hline, by simpa using hdrop, hx⟩
  | case3 => cases h
  | case4 => cases h
  | case5 => cases h
  | case6 => cases h
  | case7 before interpolated c chars hne hslash hnil hline hreturn ih =>
      obtain ⟨d, chars, rfl⟩ := List.exists_cons_of_ne_nil hnil
      have hd : d ≠ '\n' := by
        rintro rfl
        exact hline _ rfl
      obtain ⟨k, x, tail, hbefore, hk, hdrop, hx⟩ := ih (.one hd) h
      exact ⟨k + 1, x, tail, by omega, .cons (by simpa using hne) hk, by simpa using hdrop, hx⟩
  | case8 => cases h
  | case9 before interpolated c chars hne _ hstart count hcount ih =>
      obtain ⟨j, _, rfl, hcount', -⟩ := interpolation_eq_ok hstart hcount
      obtain ⟨k, x, tail, hbefore, hk, hdrop, hx⟩ := ih hcount'.of_cons h
      exact ⟨k + 1, x, tail, by omega, .cons (by simpa using hne) hk, by simpa using hdrop, hx⟩
  | case10 before interpolated c chars hne _ _ hcloses =>
      cases h
      exact ⟨0, c, chars, rfl, .one (by simpa using hne), rfl, hcloses⟩
  | case11 before interpolated c chars hne _ _ _ ih =>
      obtain ⟨k, x, tail, hbefore, hk, hdrop, hx⟩ := ih (.zero _) h
      exact ⟨k + 1, x, tail, by omega, .cons (by simpa using hne) hk, by simpa using hdrop, hx⟩

/-- The fault of a string that cannot be read lies in the text. -/
theorem quotedFrom_eq_error {closes : Char → Bool} {before pending : Nat} {interpolated : Bool}
    {error : Error} (h : quotedFrom closes before interpolated pending chars = .error error) :
    error.stop ≤ before + chars.length := by
  fun_induction quotedFrom closes before interpolated pending chars with
  | case1 => cases h; simp
  | case2 before interpolated pending c chars ih =>
      have := ih h
      rw [List.length_cons]
      omega
  | case3 => cases h; simp
  | case4 => cases h; simp
  | case5 => cases h; simp
  | case6 => cases h; simp
  | case7 before interpolated c chars hne hslash hnil hline hreturn ih =>
      have := ih h
      rw [List.length_cons]
      omega
  | case8 before interpolated c chars hne _ hstart error' herror =>
      cases h
      have := interpolation_eq_error hstart herror
      simp only [Error.shift]
      omega
  | case9 before interpolated c chars hne _ hstart count hcount ih =>
      have := ih h
      rw [List.length_cons]
      omega
  | case10 => cases h
  | case11 before interpolated c chars hne _ _ _ ih =>
      have := ih h
      rw [List.length_cons]
      omega

/-- The fault of a string starts with the string or later on its line. -/
theorem quotedFrom_error_start {closes : Char → Bool} {before pending : Nat}
    {interpolated : Bool} {error : Error} (hpending : Inline chars pending)
    (h : quotedFrom closes before interpolated pending chars = .error error) :
    error.start = 0 ∨ ∃ k, error.start = before + k ∧ Inline chars k := by
  fun_induction quotedFrom closes before interpolated pending chars with
  | case1 | case3 =>
      cases h
      exact .inl rfl
  | case4 | case5 | case6 =>
      cases h
      exact .inr ⟨0, rfl, .zero _⟩
  | case2 before interpolated pending c chars ih =>
      have hc : c ≠ '\n' := by
        rintro rfl
        exact hpending.newline_notMem (by simp)
      rcases ih hpending.of_cons h with hzero | ⟨k, hk, hline⟩
      · exact .inl hzero
      · exact .inr ⟨k + 1, by omega, .cons hc hline⟩
  | case7 before interpolated c chars hne hslash hnil hline hreturn ih =>
      obtain ⟨d, chars, rfl⟩ := List.exists_cons_of_ne_nil hnil
      have hd : d ≠ '\n' := by
        rintro rfl
        exact hline _ rfl
      rcases ih (.one hd) h with hzero | ⟨k, hk, hline⟩
      · exact .inl hzero
      · exact .inr ⟨k + 1, by omega, .cons (by simpa using hne) hline⟩
  | case8 before interpolated c chars hne _ hstart error' herror =>
      cases h
      have hzero := interpolation_error_start herror
      exact .inr ⟨0, by simp only [Error.shift, hzero], .zero _⟩
  | case9 before interpolated c chars hne _ hstart count hcount ih =>
      obtain ⟨j, _, rfl, hcount', -⟩ := interpolation_eq_ok hstart hcount
      rcases ih hcount'.of_cons h with hzero | ⟨k, hk, hline⟩
      · exact .inl hzero
      · exact .inr ⟨k + 1, by omega, .cons (by simpa using hne) hline⟩
  | case10 => cases h
  | case11 before interpolated c chars hne _ _ _ ih =>
      rcases ih (.zero _) h with hzero | ⟨k, hk, hline⟩
      · exact .inl hzero
      · exact .inr ⟨k + 1, by omega, .cons (by simpa using hne) hline⟩

/-- A quoted string stands on one line between two equal quotes. -/
theorem quoted_eq_ok {quote : Char} {body : List Char} {q : Quoted} (hquote : quote ≠ '\n')
    (h : quoted (quote :: body) = .ok q) :
    ∃ k tail, q.before = k + 1 ∧ Inline (quote :: body) q.count ∧ body.drop k = quote :: tail := by
  obtain ⟨k, c, tail, hbefore, hline, hdrop, hc⟩ := quotedFrom_eq_ok (.zero _) h
  obtain rfl : c = quote := by simpa using hc
  refine ⟨k, tail, by omega, ?_, hdrop⟩
  rw [Quoted.count, hbefore, Nat.add_comm 1]
  exact .cons hquote hline

/-- A quoted string is on one line. -/
theorem inline_quoted {q : Quoted} (hstart : startsQuoted chars) (h : quoted chars = .ok q) :
    Inline chars q.count := by
  obtain ⟨body, rfl | rfl⟩ := startsQuoted_iff.mp hstart
  · obtain ⟨_, _, _, hline, -⟩ := quoted_eq_ok (by decide) h
    exact hline
  · obtain ⟨_, _, _, hline, -⟩ := quoted_eq_ok (by decide) h
    exact hline

/-- What is wrong with a quoted string is in the text. -/
theorem quoted_eq_error {error : Error} (hstart : startsQuoted chars)
    (h : quoted chars = .error error) : error.stop ≤ chars.length := by
  have hbody : ∀ {quote body}, quoted (quote :: body) = .error error →
      error.stop ≤ (quote :: body).length := by
    intro quote body h
    have := quotedFrom_eq_error h
    rw [List.length_cons]
    omega
  obtain ⟨body, rfl | rfl⟩ := startsQuoted_iff.mp hstart
  · exact hbody h
  · exact hbody h

/-- Up to where something is wrong with it, a quoted string is on one line. -/
theorem inline_quoted_error {error : Error} (hstart : startsQuoted chars)
    (h : quoted chars = .error error) : Inline chars error.start := by
  have hbody : ∀ {quote body}, quote ≠ '\n' → quoted (quote :: body) = .error error →
      Inline (quote :: body) error.start := by
    intro quote body hquote h
    rcases quotedFrom_error_start (.zero _) h with hzero | ⟨k, hk, hline⟩
    · rw [hzero]
      exact .zero _
    · rw [hk, Nat.add_comm]
      exact .cons hquote hline
  obtain ⟨body, rfl | rfl⟩ := startsQuoted_iff.mp hstart
  · exact hbody (by decide) h
  · exact hbody (by decide) h

/-! ### Comments -/

/-- The characters of the tag of a comment. -/
def isTagChar (c : Char) : Bool :=
  c == '#' || c == '!' || c == '@' || c == '>'

/-- The tag of a comment is made of characters of tags. -/
theorem taken_commentTag (chars : List Char) : Taken isTagChar chars (commentTag chars).1 := by
  have hhashes : Taken isTagChar chars (run (· == '#') chars) := by
    refine (taken_run _ _).mono fun c hc => ?_
    rw [isTagChar, hc]
    rfl
  unfold commentTag
  simp only
  split
  · exact hhashes
  · rename_i mark tail hdrop
    split
    · rename_i hmark
      have htag : isTagChar mark := by
        simp only [Bool.or_eq_true, beq_iff_eq] at hmark
        rcases hmark with (rfl | rfl) | rfl <;> decide
      have hmarks : Taken isTagChar tail (run (· == mark) tail) := by
        refine (taken_run _ _).mono fun c hc => ?_
        obtain rfl : c = mark := by simpa using hc
        exact htag
      rw [Nat.add_assoc, Nat.add_comm 1]
      refine hhashes.add ?_
      rw [hdrop]
      exact .cons htag hmarks
    · exact hhashes

/-- The tag of a comment is on one line. -/
theorem inline_commentTag (chars : List Char) : Inline chars (commentTag chars).1 :=
  (taken_commentTag chars).inline (by decide)

/-- The text of a comment ends with its statement at the latest. -/
theorem commentText_le_statement (chars : List Char) : commentText chars ≤ statement chars := by
  unfold commentText
  simp only
  split <;> omega

/-! ### Chunks -/

/-- A chunk stays in the text. -/
theorem chunk_le_length (chars : List Char) : chunk chars ≤ chars.length := by
  have := run_le_length isChunkChar chars
  unfold chunk
  omega

/-- A step along broken coordinates stays in the text. -/
theorem coordinateStep_le_length (chars : List Char) :
    coordinateStep chars ≤ chars.length := by
  unfold coordinateStep
  simp only
  split
  · exact Nat.zero_le _
  · have hgap := run_le_length isBlank chars
    have := chunk_le_length (chars.drop (run isBlank chars))
    rw [List.length_drop] at this
    omega

/-- Broken coordinates stay in the text. -/
theorem coordinateRun_le_length (chars : List Char) : coordinateRun chars ≤ chars.length := by
  have hchunk := chunk_le_length chars
  have := repeated_le_length coordinateStep_le_length (chars.drop (chunk chars))
  rw [List.length_drop] at this
  unfold coordinateRun
  omega

/-- Nothing becomes longer when blanks at its end are dropped. -/
theorem length_trimEnd_le (chars : List Char) : (trimEnd chars).length ≤ chars.length := by
  unfold trimEnd
  rw [List.length_reverse]
  exact (List.dropWhile_suffix _).length_le.trans List.length_reverse.le

/-- A statement without blanks at its end is no longer than the statement. -/
theorem trimmedStatement_le_statement (chars : List Char) :
    trimmedStatement chars ≤ statement chars := by
  refine (length_trimEnd_le _).trans ?_
  rw [List.length_take]
  exact Nat.min_le_left _ _

/-- The chunk that recovery skips stays inside the statement. -/
theorem balancedChunk_le_statement (chars : List Char) :
    balancedChunk [] 0 chars ≤ statement chars := by
  suffices h : ∀ closers pending m rest, chars.drop m = rest → m + pending ≤ statement chars →
      m + balancedChunk closers pending rest ≤ statement chars by
    simpa using h [] 0 0 chars rfl (by simp)
  intro closers pending m rest hrest hm
  -- what the statement still holds at a place inside it may be taken from there
  have hleft : ∀ {m rest n}, chars.drop m = rest → m ≤ statement chars → n ≤ statement rest →
      m + n ≤ statement chars := by
    intro m rest n hrest hm hn
    have := add_statement_drop_le hm
    rw [hrest] at this
    omega
  have hnext : ∀ {m c rest}, chars.drop m = c :: rest → chars.drop (m + 1) = rest := by
    intro m c rest hrest
    rw [← List.drop_drop, hrest, List.drop_succ_cons, List.drop_zero]
  fun_induction balancedChunk closers pending rest generalizing m with
  | case1 closers pending => omega
  | case2 closers pending c rest ih =>
      have := ih (m + 1) (hnext hrest) (by omega)
      omega
  | case3 | case4 | case6 | case11 | case12 => exact hm
  | case5 closers c rest hc count hcount _ ih =>
      have htwo := two_le_continuation hcount
      have hle : count ≤ statement (c :: rest) := by
        rw [statement_of_continuation hcount]
        exact Nat.le_add_right _ _
      have := ih (m + 1) (hnext hrest) (by have := hleft hrest hm hle; omega)
      omega
  | case7 closers c rest hc _ _ _ q hq ih =>
      obtain ⟨_, _, _, hline, -⟩ := quoted_eq_ok (by simpa using hc) hq
      have hle := hleft hrest hm hline.le_statement
      rw [Quoted.count] at hle
      have := ih (m + 1) (hnext hrest) (by omega)
      omega
  | case8 closers c rest hc =>
      have hpos : 1 ≤ statement (c :: rest) := statement_pos (by simpa using hc)
      exact hleft hrest hm (max_le (trimmedStatement_le_statement _) hpos)
  | case13 c rest hc =>
      exact hleft hrest hm (statement_pos (by simpa using hc))
  | case9 closers c rest hc _ _ _ _ ih
  | case10 closers c rest hc _ _ _ _ _ ih
  | case14 c rest hc _ _ _ _ _ _ _ _ _ _ ih
  | case15 closers c rest hc _ _ _ _ _ _ ih =>
      have hpos : 1 ≤ statement (c :: rest) := statement_pos (by simpa using hc)
      have hle : m + 1 ≤ statement chars := hleft hrest hm hpos
      have := ih (m + 1) (hnext hrest) hle
      omega

end Mcfunction.Scan
