import Mcfunction.Json.Numeral
import Mathlib.Data.List.TakeWhile

/-!
# The Characters of a JSON Numeral

A numeral is read from the characters it takes, and from nothing behind them: what the reader
finds at the front of a text, it finds again when something else follows (`numeral?_split`).
All that is asked of what follows is that it does not go on with the numeral (`Ends`).

A numeral is a sign, whole digits, perhaps a point with digits, and perhaps an exponent. The
reader is first put into this form (`numeral?_sign`, `exponent?_sign`), with the value of the
numeral as a function of its parts.
-/

namespace Mcfunction.Json

/-- Characters with which a numeral can go on. -/
def goesOn (c : Char) : Bool :=
  c.isDigit || c == '.' || c == 'e' || c == 'E'

/-- What stands behind a numeral does not go on with it. -/
def Ends (tail : List Char) : Prop :=
  ∀ c ∈ tail.head?, goesOn c = false

/-- What ends a numeral, character by character. -/
theorem goesOn_eq_false {c : Char} :
    goesOn c = false ↔ c.isDigit = false ∧ c ≠ '.' ∧ c ≠ 'e' ∧ c ≠ 'E' := by
  simp [goesOn, and_assoc]

theorem ends_nil : Ends [] := by
  intro c hc
  simp at hc

theorem ends_cons {c : Char} {tail : List Char} (h : goesOn c = false) : Ends (c :: tail) := by
  intro x hx
  obtain rfl : c = x := by simpa using hx
  exact h

/-- A reader takes these characters as this value, whatever stands behind them. -/
def Takes {α : Type} (read : List Char → Option (α × List Char)) (chars : List Char)
    (value : α) : Prop :=
  ∀ tail, Ends tail → read (chars ++ tail) = some (value, tail)

theorem Takes.self {α : Type} {read : List Char → Option (α × List Char)} {chars : List Char}
    {value : α} (h : Takes read chars value) : read chars = some (value, []) := by
  simpa using h [] ends_nil

/-! ### Numerals -/

/-- Characters of numerals. -/
def isNumeral (c : Char) : Bool :=
  c.isDigit || c == '.' || c == 'e' || c == 'E' || c == '+' || c == '-'

theorem isNumeral_of_isDigit {c : Char} (h : c.isDigit) : isNumeral c := by
  simp [isNumeral, h]

/-- Digits end where a character follows that is none. -/
theorem digits_append {digits tail : List Char} (hdigits : ∀ c ∈ digits, c.isDigit)
    (htail : ∀ c ∈ tail.head?, c.isDigit = false) :
    (digits ++ tail).takeWhile Char.isDigit = digits ∧
      (digits ++ tail).dropWhile Char.isDigit = tail := by
  have hstop : tail.takeWhile Char.isDigit = [] ∧ tail.dropWhile Char.isDigit = tail := by
    cases tail with
    | nil => simp
    | cons c tail =>
      have hc : c.isDigit = false := htail c (by simp)
      simp [hc]
  constructor
  · rw [List.takeWhile_append_of_pos hdigits, hstop.1, List.append_nil]
  · rw [List.dropWhile_append_of_pos hdigits, hstop.2]

theorem Ends.not_isDigit {tail : List Char} (h : Ends tail) :
    ∀ c ∈ tail.head?, c.isDigit = false := by
  intro c hc
  exact (goesOn_eq_false.mp (h c hc)).1

/-- A text is cut behind the digits it starts with. -/
theorem exists_digits (chars : List Char) :
    ∃ digits rest, chars = digits ++ rest ∧ (∀ c ∈ digits, c.isDigit) ∧
      chars.takeWhile Char.isDigit = digits ∧ chars.dropWhile Char.isDigit = rest := by
  refine ⟨chars.takeWhile Char.isDigit, chars.dropWhile Char.isDigit, ?_, ?_, rfl, rfl⟩
  · exact List.takeWhile_append_dropWhile.symm
  · intro c hc
    exact List.mem_takeWhile_imp hc

/-- What an exponent starts with. -/
def Opens (chars : List Char) : Prop :=
  ∀ c ∈ chars.head?, c = 'e' ∨ c = 'E'

/-- Behind the digits of a numeral comes its exponent, or what is behind the numeral. -/
theorem Opens.append {chars tail : List Char} (h : Opens chars) (htail : Ends tail) :
    (∀ c ∈ (chars ++ tail).head?, c.isDigit = false) ∧ ∀ c ∈ (chars ++ tail).head?, c ≠ '.' := by
  cases chars with
  | nil =>
    constructor
    · intro c hc
      exact (goesOn_eq_false.mp (htail c hc)).1
    · intro c hc
      exact (goesOn_eq_false.mp (htail c hc)).2.1
  | cons c chars =>
    have hc : c = 'e' ∨ c = 'E' := h c (by simp)
    constructor <;> intro x hx <;> obtain rfl : c = x := by simpa using hx
    · rcases hc with rfl | rfl <;> decide
    · rcases hc with rfl | rfl <;> decide

/-- Signs of exponents. -/
def signs : List (List Char) :=
  [[], ['-'], ['+']]

/-- A sign is cut off, or there is none. -/
theorem exists_sign (chars : List Char) :
    ∃ sign ∈ signs, ∃ rest, chars = sign ++ rest ∧
      (sign = [] → ∀ c ∈ rest.head?, c ≠ '-' ∧ c ≠ '+') := by
  rcases chars with _ | ⟨c, chars⟩
  · exact ⟨[], by simp [signs], [], rfl, by simp⟩
  · by_cases hminus : c = '-'
    · exact ⟨['-'], by simp [signs], chars, by simp [hminus], by simp⟩
    · by_cases hplus : c = '+'
      · exact ⟨['+'], by simp [signs], chars, by simp [hplus], by simp⟩
      · exact ⟨[], by simp [signs], c :: chars, rfl, by simp [hminus, hplus]⟩

theorem isNumeral_of_mem_signs {sign : List Char} (h : sign ∈ signs) :
    ∀ c ∈ sign, isNumeral c := by
  simp only [signs, List.mem_cons, List.not_mem_nil, or_false] at h
  rcases h with rfl | rfl | rfl <;> simp [isNumeral]

/-- The integer that digits write behind a sign. -/
def signed (sign digits : List Char) : Int :=
  if sign = ['-'] then -(Decimal.readDigits 0 digits : Int) else Decimal.readDigits 0 digits

/-- An exponent is a letter, a sign and all the digits that follow. -/
theorem exponent?_sign {letter : Char} {sign rest : List Char}
    (hletter : letter = 'e' ∨ letter = 'E') (hsign : sign ∈ signs)
    (hrest : sign = [] → ∀ c ∈ rest.head?, c ≠ '-' ∧ c ≠ '+') :
    exponent? (letter :: (sign ++ rest)) =
      if rest.takeWhile Char.isDigit = [] then none
      else some (some (signed sign (rest.takeWhile Char.isDigit)),
        rest.dropWhile Char.isDigit) := by
  have hle : (letter == 'e' || letter == 'E') = true := by simpa using hletter
  simp only [signs, List.mem_cons, List.not_mem_nil, or_false] at hsign
  rcases hsign with rfl | rfl | rfl
  · cases rest with
    | nil => simp [exponent?, hle]
    | cons c rest =>
      obtain ⟨hminus, hplus⟩ := hrest rfl c (by simp)
      simp [exponent?, hle, hminus, hplus, signed, -List.takeWhile_eq_nil_iff]
  · simp [exponent?, hle, signed, -List.takeWhile_eq_nil_iff]
  · simp [exponent?, hle, signed, -List.takeWhile_eq_nil_iff]

/-- Without a letter there is no exponent. -/
theorem exponent?_of_head {chars : List Char} (h : ∀ c ∈ chars.head?, c ≠ 'e' ∧ c ≠ 'E') :
    exponent? chars = some (none, chars) := by
  cases chars with
  | nil => rfl
  | cons c chars =>
    obtain ⟨he, hE⟩ := h c (by simp)
    simp [exponent?, he, hE]

theorem takes_exponent?_nil : Takes exponent? [] none := by
  intro tail htail
  refine exponent?_of_head fun c hc => ?_
  obtain ⟨-, -, he, hE⟩ := goesOn_eq_false.mp (htail c hc)
  exact ⟨he, hE⟩

/-- A letter, a sign and digits are an exponent. -/
theorem takes_exponent? {letter : Char} {sign digits : List Char}
    (hletter : letter = 'e' ∨ letter = 'E') (hsign : sign ∈ signs) (hne : digits ≠ [])
    (hdigits : ∀ c ∈ digits, c.isDigit) :
    Takes exponent? (letter :: (sign ++ digits)) (some (signed sign digits)) := by
  intro tail htail
  obtain ⟨htake, hdrop⟩ := digits_append hdigits htail.not_isDigit
  rw [List.cons_append, List.append_assoc, exponent?_sign hletter hsign, htake, hdrop,
    if_neg hne]
  -- without a sign the digits must not be taken for one
  intro _ c hc
  obtain ⟨d, digits, rfl⟩ := List.exists_cons_of_ne_nil hne
  obtain rfl : d = c := by simpa using hc
  have hd : d.isDigit := hdigits d (by simp)
  constructor <;> rintro rfl <;> exact absurd hd (by decide)

/-- An exponent is read from its own characters. -/
theorem exponent?_split {chars rest : List Char} {exponent : Option Int}
    (h : exponent? chars = some (exponent, rest)) :
    ∃ front, chars = front ++ rest ∧ (∀ c ∈ front, isNumeral c) ∧ Opens front ∧
      Takes exponent? front exponent := by
  by_cases hhead : ∀ c ∈ chars.head?, c ≠ 'e' ∧ c ≠ 'E'
  · rw [exponent?_of_head hhead] at h
    obtain ⟨rfl, rfl⟩ : none = exponent ∧ chars = rest := by simpa using h
    exact ⟨[], rfl, by simp, by simp [Opens], takes_exponent?_nil⟩
  · obtain ⟨letter, chars, rfl, hletter⟩ :
        ∃ letter behind, chars = letter :: behind ∧ (letter = 'e' ∨ letter = 'E') := by
      cases chars with
      | nil => simp at hhead
      | cons letter behind =>
        refine ⟨letter, behind, rfl, ?_⟩
        by_contra hne
        exact hhead fun c hc => by
          obtain rfl : letter = c := by simpa using hc
          exact not_or.mp hne
    obtain ⟨sign, hsign, behind, rfl, hbehind⟩ := exists_sign chars
    obtain ⟨digits, after, rfl, hdigits, htake, hdrop⟩ := exists_digits behind
    rw [exponent?_sign hletter hsign hbehind, htake, hdrop] at h
    have hne : digits ≠ [] := by
      rintro rfl
      simp at h
    obtain ⟨rfl, rfl⟩ : some (signed sign digits) = exponent ∧ after = rest := by
      simpa [hne] using h
    refine ⟨letter :: (sign ++ digits), by simp, ?_, ?_, takes_exponent? hletter hsign hne hdigits⟩
    · intro c hc
      rcases List.mem_cons.mp hc with rfl | hc
      · rcases hletter with rfl | rfl <;> decide
      · rcases List.mem_append.mp hc with hc | hc
        · exact isNumeral_of_mem_signs hsign c hc
        · exact isNumeral_of_isDigit (hdigits c hc)
    · intro c hc
      obtain rfl : letter = c := by simpa using hc
      exact hletter

/-- Digits that a numeral can begin with: at least one, and no zero before another. -/
def isWhole (digits : List Char) : Bool :=
  !(digits.isEmpty || (digits.head? == some '0' && 1 < digits.length))

/-- The value of a numeral without a point. -/
def wholeValue (negative : Bool) (whole : List Char) (exponent : Option Int) : Option Json :=
  let (significand, count) := absorb 0 whole
  let place : Int := (whole.length - count : Nat)
  if exponent.isNone && place == 0 then some (integerOf negative significand)
  else scaled? negative significand place (exponent.getD 0)

/-- The value of a numeral with digits behind a point. -/
def fractionValue (negative : Bool) (whole fraction : List Char) (exponent : Option Int) :
    Option Json :=
  let (significand, count) := absorb 0 whole
  let place : Int := (whole.length - count : Nat)
  let (significand, count) := absorb significand fraction
  scaled? negative significand (place - count) (exponent.getD 0)

/-- What follows the whole digits of a numeral. -/
def afterWhole? (negative : Bool) (whole : List Char) :
    List Char → Option (Option Json × List Char)
  | '.' :: chars =>
    if chars.takeWhile Char.isDigit = [] then none
    else (exponent? (chars.dropWhile Char.isDigit)).map fun read =>
      (fractionValue negative whole (chars.takeWhile Char.isDigit) read.1, read.2)
  | chars => (exponent? chars).map fun read => (wholeValue negative whole read.1, read.2)

/-- Where no point comes next, the digits are followed by an exponent at most. -/
theorem afterWhole?_of_head {negative : Bool} {whole chars : List Char}
    (h : ∀ c ∈ chars.head?, c ≠ '.') :
    afterWhole? negative whole chars =
      (exponent? chars).map fun read => (wholeValue negative whole read.1, read.2) := by
  cases chars with
  | nil => rfl
  | cons c chars =>
    have hc : c ≠ '.' := h c (by simp)
    simp [afterWhole?, hc]

/-- Signs of numerals. -/
def minusSigns : List (List Char) :=
  [[], ['-']]

theorem isNumeral_of_mem_minusSigns {sign : List Char} (h : sign ∈ minusSigns) :
    ∀ c ∈ sign, isNumeral c := by
  simp only [minusSigns, List.mem_cons, List.not_mem_nil, or_false] at h
  rcases h with rfl | rfl <;> simp [isNumeral]

/-- A text has a minus sign in front or none. -/
theorem exists_minusSign (chars : List Char) :
    ∃ sign ∈ minusSigns, ∃ rest, chars = sign ++ rest ∧
      (sign = [] → ∀ c ∈ rest.head?, c ≠ '-') := by
  rcases chars with _ | ⟨c, chars⟩
  · exact ⟨[], by simp [minusSigns], [], rfl, by simp⟩
  · by_cases hminus : c = '-'
    · exact ⟨['-'], by simp [minusSigns], chars, by simp [hminus], by simp⟩
    · exact ⟨[], by simp [minusSigns], c :: chars, rfl, by simp [hminus]⟩

/-- A numeral is a sign, all the digits that follow, and what comes then. -/
theorem numeral?_sign {sign rest : List Char} (hsign : sign ∈ minusSigns)
    (hrest : sign = [] → ∀ c ∈ rest.head?, c ≠ '-') :
    numeral? (sign ++ rest) =
      if isWhole (rest.takeWhile Char.isDigit) then
        afterWhole? (decide (sign = ['-'])) (rest.takeWhile Char.isDigit)
          (rest.dropWhile Char.isDigit)
      else none := by
  unfold numeral?
  split
  next negative behind hmatch =>
  obtain ⟨rfl, rfl⟩ : negative = decide (sign = ['-']) ∧ behind = rest := by
    simp only [minusSigns, List.mem_cons, List.not_mem_nil, or_false] at hsign
    rcases hsign with rfl | rfl
    · cases rest with
      | nil => simpa [eq_comm] using hmatch
      | cons c rest =>
        have hc : c ≠ '-' := hrest rfl c (by simp)
        simpa [hc, eq_comm] using hmatch
    · simpa [eq_comm] using hmatch
  generalize behind.takeWhile Char.isDigit = whole
  generalize behind.dropWhile Char.isDigit = after
  cases hwhole : isWhole whole with
  | false =>
    simp only [isWhole, Bool.not_eq_false'] at hwhole
    simp [hwhole]
  | true =>
    simp only [isWhole, Bool.not_eq_true'] at hwhole
    simp only [hwhole, Bool.false_eq_true, if_false, if_true]
    split
    · next chars =>
      simp only [afterWhole?, List.isEmpty_iff]
      by_cases hnil : chars.takeWhile Char.isDigit = []
      · simp only [hnil, if_true]
      · simp only [hnil, if_false]
        cases exponent? (chars.dropWhile Char.isDigit) <;> rfl
    · next hpoint =>
      have hhead : ∀ c ∈ after.head?, c ≠ '.' := by
        rintro _ hc rfl
        cases after with
        | nil => simp at hc
        | cons c chars => exact hpoint chars (by simpa using hc)
      rw [afterWhole?_of_head hhead]
      cases hread : exponent? after with
      | none => rfl
      | some read =>
        simp only [Option.bind_eq_bind, Option.bind_some, Option.map_some, wholeValue]
        split <;> rfl

theorem ne_nil_of_isWhole {whole : List Char} (h : isWhole whole) : whole ≠ [] := by
  rintro rfl
  exact absurd h (by decide)

/-- Digits are not taken for a sign. -/
theorem head_ne_minus {digits : List Char} (hne : digits ≠ [])
    (hdigits : ∀ c ∈ digits, c.isDigit) (tail : List Char) :
    ∀ c ∈ (digits ++ tail).head?, c ≠ '-' := by
  obtain ⟨d, digits, rfl⟩ := List.exists_cons_of_ne_nil hne
  rintro _ hc rfl
  obtain rfl : d = '-' := by simpa using hc
  exact absurd (hdigits '-' (by simp)) (by decide)

/-- A sign, whole digits and an exponent are a numeral. -/
theorem takes_numeral?_whole {sign whole front : List Char} {exponent : Option Int}
    (hsign : sign ∈ minusSigns) (hwhole : isWhole whole) (hdigits : ∀ c ∈ whole, c.isDigit)
    (hopens : Opens front) (hfront : Takes exponent? front exponent) :
    Takes numeral? (sign ++ (whole ++ front))
      (wholeValue (decide (sign = ['-'])) whole exponent) := by
  intro tail htail
  obtain ⟨hdigit, hpoint⟩ := hopens.append htail
  obtain ⟨htake, hdrop⟩ := digits_append hdigits hdigit
  have hhead := head_ne_minus (ne_nil_of_isWhole hwhole) hdigits (front ++ tail)
  rw [List.append_assoc, List.append_assoc, numeral?_sign hsign fun _ => hhead, htake, hdrop,
    if_pos hwhole, afterWhole?_of_head hpoint, hfront tail htail]
  rfl

/-- A sign, whole digits, a point, digits and an exponent are a numeral. -/
theorem takes_numeral?_fraction {sign whole fraction front : List Char} {exponent : Option Int}
    (hsign : sign ∈ minusSigns) (hwhole : isWhole whole) (hdigits : ∀ c ∈ whole, c.isDigit)
    (hne : fraction ≠ []) (hfraction : ∀ c ∈ fraction, c.isDigit)
    (hopens : Opens front) (hfront : Takes exponent? front exponent) :
    Takes numeral? (sign ++ (whole ++ '.' :: (fraction ++ front)))
      (fractionValue (decide (sign = ['-'])) whole fraction exponent) := by
  intro tail htail
  have hpoint : ∀ c ∈ ('.' :: (fraction ++ (front ++ tail))).head?, c.isDigit = false := by
    intro c hc
    obtain rfl : '.' = c := by simpa using hc
    decide
  obtain ⟨htake, hdrop⟩ := digits_append hdigits hpoint
  obtain ⟨htake', hdrop'⟩ := digits_append hfraction (hopens.append htail).1
  have hhead := head_ne_minus (ne_nil_of_isWhole hwhole) hdigits
    ('.' :: (fraction ++ (front ++ tail)))
  simp only [List.append_assoc, List.cons_append]
  rw [numeral?_sign hsign fun _ => hhead, htake, hdrop, if_pos hwhole, afterWhole?, htake', hdrop',
    if_neg hne, hfront tail htail]
  rfl

/-- A numeral is read from its own characters. -/
theorem numeral?_split {chars rest : List Char} {value : Option Json}
    (h : numeral? chars = some (value, rest)) :
    ∃ front, chars = front ++ rest ∧ (∀ c ∈ front, isNumeral c) ∧ front ≠ [] ∧
      Takes numeral? front value := by
  obtain ⟨sign, hsign, behind, rfl, hbehind⟩ := exists_minusSign chars
  obtain ⟨whole, after, rfl, hdigits, htake, hdrop⟩ := exists_digits behind
  rw [numeral?_sign hsign hbehind, htake, hdrop] at h
  have hwhole : isWhole whole := by
    by_contra hno
    simp [hno] at h
  rw [if_pos hwhole] at h
  have hnumeral : ∀ c ∈ sign ++ whole, isNumeral c := by
    intro c hc
    rcases List.mem_append.mp hc with hc | hc
    · exact isNumeral_of_mem_minusSigns hsign c hc
    · exact isNumeral_of_isDigit (hdigits c hc)
  have hne := ne_nil_of_isWhole hwhole
  by_cases hpoint : ∃ chars, after = '.' :: chars
  · obtain ⟨chars, rfl⟩ := hpoint
    obtain ⟨fraction, after, rfl, hfraction, htake', hdrop'⟩ := exists_digits chars
    rw [afterWhole?, htake', hdrop'] at h
    have hnil : fraction ≠ [] := by
      rintro rfl
      simp at h
    rw [if_neg hnil] at h
    obtain ⟨⟨exponent, tail⟩, hread, heq⟩ := Option.map_eq_some_iff.mp h
    obtain ⟨rfl, rfl⟩ := Prod.mk.inj heq
    obtain ⟨front, rfl, hfront, hopens, htakes⟩ := exponent?_split hread
    refine ⟨sign ++ (whole ++ '.' :: (fraction ++ front)), by simp, ?_, by simp,
      takes_numeral?_fraction hsign hwhole hdigits hnil hfraction hopens htakes⟩
    intro c hc
    rw [← List.append_assoc] at hc
    rcases List.mem_append.mp hc with hc | hc
    · exact hnumeral c hc
    · rcases List.mem_cons.mp hc with rfl | hc
      · rfl
      · rcases List.mem_append.mp hc with hc | hc
        · exact isNumeral_of_isDigit (hfraction c hc)
        · exact hfront c hc
  · have hhead : ∀ c ∈ after.head?, c ≠ '.' := by
      rintro _ hc rfl
      cases after with
      | nil => simp at hc
      | cons c chars => exact hpoint ⟨chars, by simpa using hc⟩
    rw [afterWhole?_of_head hhead] at h
    obtain ⟨⟨exponent, tail⟩, hread, heq⟩ := Option.map_eq_some_iff.mp h
    obtain ⟨rfl, rfl⟩ := Prod.mk.inj heq
    obtain ⟨front, rfl, hfront, hopens, htakes⟩ := exponent?_split hread
    refine ⟨sign ++ (whole ++ front), by simp, ?_, by simp [hne],
      takes_numeral?_whole hsign hwhole hdigits hopens htakes⟩
    intro c hc
    rw [← List.append_assoc] at hc
    rcases List.mem_append.mp hc with hc | hc
    · exact hnumeral c hc
    · exact hfront c hc

end Mcfunction.Json
