import Mcfunction.Proofs.Json.Lexeme
import Mathlib.Tactic.IntervalCases

/-!
# Strings and Integers Read Back

The text of a string is read as the string (`first?_stringText`), and the text of an integer of
64 bits, signed or not, as the integer (`first?_integerText`). For a string this goes character
by character: each is written by itself, by a letter behind a backslash, or by its number. An
integer is written without superfluous zeros, so all of its text is one numeral.
-/

namespace Mcfunction.Json

open Lexeme

/-! ### Strings -/

/-- A control character that is written by its number is read from it. -/
theorem codeUnit?_control {code : Nat} (h : code < 32) (tail : List Char) :
    codeUnit?
        ('0' :: '0' :: (if code < 16 then '0' else '1') :: Nat.digitChar (code % 16) :: tail) =
      some (code, tail) := by
  interval_cases code <;> rfl

/-- One character of a string is read from its text. -/
theorem stringBody?_stringChar (read : List Char) (fuel : Nat) (c : Char) (tail : List Char) :
    stringBody? (some read) (fuel + 1) (stringChar c ++ tail) =
      stringBody? (some (c :: read)) fuel tail := by
  unfold stringChar
  split
  · rfl
  · rfl
  · rfl
  · rfl
  · rfl
  · rfl
  · rfl
  · next hquote hbackslash _ _ _ _ _ =>
    split
    · next hcontrol =>
      have hcode : c.toNat < 32 := by
        rw [Char.lt_def, UInt32.lt_iff_toNat_lt] at hcontrol
        exact hcontrol
      have hchar : Char.ofNat c.toNat = c := Char.ofNat_toNat c
      have hunit := codeUnit?_control hcode tail
      have hrange : c.toNat < 0xd800 ∨ 0xe000 ≤ c.toNat := by omega
      simp [stringBody?, escape?, unicodeEscape?, hunit, hrange, hchar]
    · next hcontrol =>
      have hquote : c ≠ '"' := hquote
      have hbackslash : c ≠ '\\' := hbackslash
      simp [stringBody?, hquote, hbackslash, hcontrol]

/-- The text of a string is read to its end. -/
theorem stringBody?_text (read chars : List Char) (tail : List Char) :
    stringBody? (some read) (chars.length + 1) (chars.flatMap stringChar ++ '"' :: tail) =
      some (some (String.ofList (read.reverse ++ chars)), tail) := by
  induction chars generalizing read with
  | nil => simp [stringBody?]
  | cons c chars ih =>
    rw [List.flatMap_cons, List.append_assoc, List.length_cons, stringBody?_stringChar, ih]
    simp

/-- The text of a string is read as the string. -/
theorem first?_stringText (text : String) :
    first? (stringText text).toList = some (.string (some text), []) := by
  obtain ⟨body, heq, -, htakes⟩ := stringBody?_split (stringBody?_text [] text.toList [])
  obtain rfl : text.toList.flatMap stringChar = body := by simpa using heq
  have hread := htakes [] ((text.toList.flatMap stringChar ++ ['"']).length + 1)
    (by rw [List.length_append]; omega)
  simp only [List.reverse_nil, List.nil_append, String.ofList_toList] at hread
  rw [stringText, String.toList_ofList, List.cons_append, first?, hread]
  rfl

/-! ### Numerals -/

/-- A numeral starts with a minus sign or a digit. -/
theorem head_of_numeral? {chars : List Char} {read : Option Json × List Char}
    (h : numeral? chars = some read) :
    ∃ c tail, chars = c :: tail ∧ (c = '-' ∨ c.isDigit) := by
  obtain ⟨sign, hsign, behind, rfl, hbehind⟩ := exists_minusSign chars
  obtain ⟨whole, after, rfl, hdigits, htake, hdrop⟩ := exists_digits behind
  rw [numeral?_sign hsign hbehind, htake, hdrop] at h
  have hwhole : isWhole whole := by
    by_contra hno
    simp [hno] at h
  obtain ⟨d, digits, rfl⟩ := List.exists_cons_of_ne_nil (ne_nil_of_isWhole hwhole)
  simp only [minusSigns, List.mem_cons, List.not_mem_nil, or_false] at hsign
  rcases hsign with rfl | rfl
  · exact ⟨d, digits ++ after, rfl, .inr (hdigits d (by simp))⟩
  · exact ⟨'-', d :: digits ++ after, rfl, .inl rfl⟩

/-- A numeral is a lexeme. -/
theorem first?_of_numeral? {chars : List Char} {value : Option Json}
    (h : numeral? chars = some (value, [])) : first? chars = some (.scalar value, []) := by
  obtain ⟨c, tail, rfl, hc⟩ := head_of_numeral? h
  have hbare : isBare c := by
    rcases hc with rfl | hdigit
    · decide
    · simp [isBare, isNumeral, hdigit]
  rw [first?_bare hbare, if_pos (by rcases hc with rfl | hdigit <;> simp [*]), h]
  rfl

/-! ### Integers -/

theorem isDigit_of_mem_toDigits {n : Nat} : ∀ c ∈ Nat.toDigits 10 n, c.isDigit := by
  intro c hc
  exact Nat.isDigit_of_mem_toDigits (by decide) (by decide) hc

theorem digitValue_digitChar {d : Nat} (h : d < 10) : Decimal.digitValue (Nat.digitChar d) = d := by
  interval_cases d <;> rfl

/-- The digits of a number write the number. -/
theorem readDigits_toDigits (n : Nat) : Decimal.readDigits 0 (Nat.toDigits 10 n) = n := by
  induction n using Nat.strongRecOn with
  | ind n ih =>
    by_cases hsmall : n < 10
    · rw [Nat.toDigits_of_lt_base hsmall]
      simp [Decimal.readDigits, digitValue_digitChar hsmall]
    · have hlast : n % 10 < 10 := Nat.mod_lt n (by decide)
      have hread := ih (n / 10) (by omega)
      rw [Decimal.readDigits] at hread
      rw [Nat.toDigits_of_base_le (by decide) (by omega), Decimal.readDigits, List.foldl_append,
        hread]
      simp only [List.foldl_cons, List.foldl_nil, digitValue_digitChar hlast]
      omega

/-- Only zero has a zero for its first digit. -/
theorem head?_toDigits {n : Nat} (h : 0 < n) : (Nat.toDigits 10 n).head? ≠ some '0' := by
  induction n using Nat.strongRecOn with
  | ind n ih =>
    by_cases hsmall : n < 10
    · rw [Nat.toDigits_of_lt_base hsmall]
      interval_cases n <;> decide
    · have hne : Nat.toDigits 10 (n / 10) ≠ [] := Nat.toDigits_ne_nil
      have hhead := ih (n / 10) (by omega) (by omega)
      obtain ⟨d, digits, heq⟩ := List.exists_cons_of_ne_nil hne
      rw [heq] at hhead
      rw [Nat.toDigits_of_base_le (by decide) (by omega), heq]
      exact hhead

/-- The digits of a number can be the whole part of a numeral. -/
theorem isWhole_toDigits (n : Nat) : isWhole (Nat.toDigits 10 n) := by
  have hne : Nat.toDigits 10 n ≠ [] := Nat.toDigits_ne_nil
  rcases Nat.eq_zero_or_pos n with rfl | hpos
  · decide
  · simp [isWhole, hne, head?_toDigits hpos]

/-- More digits write no smaller number. -/
theorem le_readDigits (value : Nat) (digits : List Char) :
    value ≤ Decimal.readDigits value digits := by
  induction digits generalizing value with
  | nil => exact Nat.le_refl value
  | cons c digits ih =>
    have hnext := ih (10 * value + Decimal.digitValue c)
    rw [Decimal.readDigits, List.foldl_cons]
    rw [Decimal.readDigits] at hnext
    omega

/-- Digits are all read if the number that they write fits into 64 bits. -/
theorem absorb_eq {value : Nat} {digits : List Char}
    (h : Decimal.readDigits value digits < Nat.pow 2 64) :
    absorb value digits = (Decimal.readDigits value digits, digits.length) := by
  induction digits generalizing value with
  | nil => rfl
  | cons c digits ih =>
    rw [Decimal.readDigits, List.foldl_cons] at h
    have hnext := le_readDigits (10 * value + Decimal.digitValue c) digits
    rw [Decimal.readDigits] at hnext
    rw [absorb, if_pos (Nat.lt_of_le_of_lt hnext h), ih h]
    rfl

/-- The integer that digits write behind a sign. -/
theorem wholeValue_toDigits {negative : Bool} {n : Nat} (h : n < Nat.pow 2 64) :
    wholeValue negative (Nat.toDigits 10 n) none = some (integerOf negative n) := by
  have hread : absorb 0 (Nat.toDigits 10 n) = (n, (Nat.toDigits 10 n).length) := by
    rw [absorb_eq (by rwa [readDigits_toDigits]), readDigits_toDigits]
  simp [wholeValue, hread]

/-- Whether an integer has 64 bits, signed or not. -/
def fits (value : Int) : Prop :=
  -(2 : Int) ^ 63 ≤ value ∧ value < (2 : Int) ^ 64

/-- The text of an integer is read as the integer. -/
theorem first?_integerText {value : Int} (h : fits value) :
    first? (integerText value).toList = some (.scalar (some (.integer value)), []) := by
  obtain ⟨hlow, hhigh⟩ := h
  have hread : ∀ sign ∈ minusSigns, numeral? (sign ++ Nat.toDigits 10 value.natAbs) =
      some (some (integerOf (decide (sign = ['-'])) value.natAbs), []) := by
    intro sign hsign
    have hopens : Opens [] := by simp [Opens]
    have htakes := takes_numeral?_whole hsign (isWhole_toDigits value.natAbs)
      isDigit_of_mem_toDigits hopens takes_exponent?_nil
    rw [wholeValue_toDigits (by simp; omega)] at htakes
    simpa using htakes.self
  rw [integerText, String.toList_ofList]
  by_cases hnegative : value < 0
  · have hvalue : integerOf true value.natAbs = .integer value := by
      have hzero : ¬ (value.natAbs = 0 ∨ Nat.pow 2 63 < value.natAbs) := by
        simp
        omega
      have hneg : -(value.natAbs : Int) = value := by omega
      simp only [integerOf, Bool.not_true, Bool.false_eq_true, if_false, hzero, hneg]
    have hminus := first?_of_numeral? (hread ['-'] (by simp [minusSigns]))
    rw [decide_eq_true rfl, hvalue] at hminus
    rwa [if_pos hnegative]
  · have hvalue : integerOf false value.natAbs = .integer value := by
      have hpos : (value.natAbs : Int) = value := by omega
      simp only [integerOf, Bool.not_false, if_true, hpos]
    have hplain := first?_of_numeral? (hread [] (by simp [minusSigns]))
    rw [decide_eq_false (by simp), hvalue] at hplain
    rwa [if_neg hnegative]

end Mcfunction.Json
