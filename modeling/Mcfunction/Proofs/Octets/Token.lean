import Mcfunction.Proofs.Octets.Basic

/-!
# Tokens in Bytes

Words, names, numbers and coordinates hold narrow characters only. So their recognizers answer the
same when they are run on the bytes of the text.

## Main results

* `word_octets`, `path_octets`, `commandName_octets`, `fakePlayer_octets`: words and names.
* `number_octets`, `suffixedNumber_octets`, `coordinate_octets`, `coordinates_octets`: numbers.
-/

namespace Mcfunction.Scan

variable {chars tail : List Char} {x : Char} {n : Nat}

/-! ### Words -/

/-- A word is told by the bytes. -/
theorem word_octets (chars : List Char) : word (octets chars) = word chars :=
  run?_octets (fun _ => isNarrow_of_isWordChar) chars

/-- A step along a resource path is told by the bytes. -/
theorem segmentStep_octets (chars : List Char) :
    segmentStep (octets chars) = segmentStep chars := by
  refine answer_octets (fun x tail hx => ?_) (fun x tail _ => ?_) chars
  · have hslash := ne_of_wide (y := '/') hx rfl
    simp [segmentStep, hslash]
  · by_cases hslash : x = '/'
    · subst hslash
      simp only [segmentStep, run_octets fun _ => isNarrow_of_isPathChar]
    · simp [segmentStep, hslash]

/-- A resource path is told by the bytes. -/
theorem path_octets (chars : List Char) : path (octets chars) = path chars := by
  rw [path, path, run?_octets fun _ => isNarrow_of_isPathChar]
  rcases hfirst : run? isPathChar chars with _ | first
  · rfl
  · have hnarrow := (taken_run? hfirst).narrow fun _ => isNarrow_of_isPathChar
    have hsegments : ∀ chars, Narrow chars (segmentStep chars) := fun chars =>
      (taken_segmentStep chars).narrow fun _ => isNarrow_of_isSolidChar
    simp only [hnarrow.drop_octets, repeated_octets hsegments segmentStep_octets]

/-- The name of a command is told by the bytes. -/
theorem commandName_octets (chars : List Char) :
    commandName (octets chars) = commandName chars := by
  refine answer_octets (fun x tail hx => ?_) (fun x tail _ => ?_) chars
  · simp [commandName, eq_false_of_wide (p := Char.isLower) (fun _ => isNarrow_of_isLower) hx]
  · simp only [commandName, run_octets fun _ => isNarrow_of_isNameChar]

/-- A fake player is told by the bytes. -/
theorem fakePlayer_octets (chars : List Char) : fakePlayer (octets chars) = fakePlayer chars := by
  refine answer_octets (fun x tail hx => ?_) (fun x tail _ => ?_) chars
  · have hhash := ne_of_wide (y := '#') hx rfl
    simp [fakePlayer, hhash]
  · by_cases hhash : x = '#'
    · subst hhash
      simp only [fakePlayer, run?_octets fun _ => isNarrow_of_isPathChar]
    · simp [fakePlayer, hhash]

/-- A fake player is narrow. -/
theorem narrow_fakePlayer (h : fakePlayer chars = some n) : Narrow chars n := by
  obtain ⟨name, k, rfl, rfl, htaken⟩ := fakePlayer_taken h
  exact .cons rfl (htaken.narrow fun _ => isNarrow_of_isTokenChar)

/-! ### Numbers and coordinates -/

/-- A minus sign is told by the bytes. -/
theorem minus_octets (chars : List Char) : minus (octets chars) = minus chars := by
  refine answer_octets (fun x tail hx => ?_) (fun x tail _ => ?_) chars
  · have hminus := ne_of_wide (y := '-') hx rfl
    simp [minus, hminus]
  · by_cases hminus : x = '-'
    · subst hminus
      rfl
    · simp [minus, hminus]

/-- The sign of an exponent is told by the bytes. -/
theorem exponentSign_octets (chars : List Char) :
    exponentSign (octets chars) = exponentSign chars := by
  refine answer_octets (fun x tail hx => ?_) (fun x tail _ => ?_) chars
  · have hplus := ne_of_wide (y := '+') hx rfl
    have hminus := ne_of_wide (y := '-') hx rfl
    simp [exponentSign, hplus, hminus]
  · by_cases hplus : x = '+'
    · subst hplus
      rfl
    · by_cases hminus : x = '-'
      · subst hminus
        rfl
      · simp [exponentSign, hplus, hminus]

/-- A run of digits is told by the bytes. -/
theorem digits_octets (chars : List Char) :
    run Char.isDigit (octets chars) = run Char.isDigit chars :=
  run_octets (fun _ => isNarrow_of_isDigit) chars

/-- A decimal is told by the bytes. -/
theorem decimal_octets (chars : List Char) : decimal (octets chars) = decimal chars := by
  have hwhole := (taken_digits chars).narrow fun _ => isNarrow_of_isTokenChar
  simp only [decimal, digits_octets, hwhole.drop_octets]
  generalize chars.drop (run Char.isDigit chars) = digits
  rcases octets_cases digits with rfl | ⟨x, tail, y, rest, rfl, hoctets, hx, hy⟩ |
    ⟨x, tail, rfl, hoctets, -⟩
  · rfl
  · simp [hoctets, ne_of_wide (y := '.') hx rfl, ne_of_wide (y := '.') hy rfl]
  · by_cases hpoint : x = '.'
    · subst hpoint
      simp only [hoctets, digits_octets]
    · simp [hoctets, hpoint]

/-- An exponent is told by the bytes. -/
theorem exponent_octets (chars : List Char) : exponent (octets chars) = exponent chars := by
  refine answer_octets (fun x tail hx => ?_) (fun x tail _ => ?_) chars
  · have hlower := ne_of_wide (y := 'e') hx rfl
    have hupper := ne_of_wide (y := 'E') hx rfl
    simp [exponent, hlower, hupper]
  · have hsign := (taken_exponentSign tail).narrow fun _ => isNarrow_of_isTokenChar
    simp only [exponent, exponentSign_octets, hsign.drop_octets, digits_octets]

/-- A number is told by the bytes. -/
theorem number_octets (chars : List Char) : number (octets chars) = number chars := by
  have hsign := (taken_minus chars).narrow fun _ => isNarrow_of_isTokenChar
  simp only [number, minus_octets, hsign.drop_octets, decimal_octets]
  rcases hmantissa : decimal (chars.drop (minus chars)) with _ | mantissa
  · rfl
  · have hmantissa := (taken_decimal hmantissa).narrow fun _ => isNarrow_of_isTokenChar
    simp only [(hsign.add hmantissa).drop_octets, exponent_octets]

/-- A number with its type letter is told by the bytes. -/
theorem suffixedNumber_octets (chars : List Char) :
    suffixedNumber (octets chars) = suffixedNumber chars := by
  simp only [suffixedNumber, number_octets]
  rcases hnumber : number chars with _ | count
  · rfl
  · have hnarrow := (taken_number hnumber).narrow fun _ => isNarrow_of_isTokenChar
    simp only [hnarrow.drop_octets]
    generalize chars.drop count = letter
    rcases octets_cases letter with rfl | ⟨x, tail, y, rest, rfl, hoctets, hx, hy⟩ |
      ⟨x, tail, rfl, hoctets, -⟩
    · rfl
    · have hletter : ∀ {x}, isNarrow x = false → isSuffixLetter x = false :=
        eq_false_of_wide fun _ h => isNarrow_iff.mpr (isSuffixLetter_size h).1
      simp [hoctets, hletter hx, hletter hy]
    · simp only [hoctets]

/-- A part of coordinates is told by the bytes. -/
theorem coordinate_octets (chars : List Char) : coordinate (octets chars) = coordinate chars := by
  refine answer_octets (fun x tail hx => ?_) (fun x tail hx => ?_) chars
  · have hnone : coordinate (x :: tail) = none := by
      by_contra hsome
      obtain ⟨n, hn⟩ := Option.ne_none_iff_exists'.mp hsome
      obtain ⟨c, offset, k, hchars, -, hc, -⟩ := coordinate_taken hn
      obtain ⟨rfl, -⟩ := List.cons.inj hchars
      exact Bool.false_ne_true (hx.symm.trans (isNarrow_of_isSolidChar hc))
    rw [hnone]
    rfl
  · have hnumber := suffixedNumber_octets (x :: tail)
    have hsign := (taken_minus tail).narrow fun _ => isNarrow_of_isTokenChar
    rw [octets_cons hx] at hnumber
    simp only [coordinate, minus_octets, hsign.drop_octets, decimal_octets, hnumber]

/-- Coordinates are told by the bytes. -/
theorem coordinates_octets (chars : List Char) :
    coordinates (octets chars) = coordinates chars := by
  simp only [coordinates, Option.bind_eq_bind, coordinate_octets]
  refine Option.bind_congr fun x hx => ?_
  have hx := (taken_coordinate hx).narrow fun _ => isNarrow_of_isSolidChar
  rw [hx.drop_octets, run?_octets fun _ => isNarrow_of_isBlank]
  refine Option.bind_congr fun gap hgap => ?_
  have hgap := hx.add ((taken_run? hgap).narrow fun _ => isNarrow_of_isBlank)
  rw [hgap.drop_octets, coordinate_octets]
  refine Option.bind_congr fun y hy => ?_
  have hy := hgap.add ((taken_coordinate hy).narrow fun _ => isNarrow_of_isSolidChar)
  rw [hy.drop_octets, run?_octets fun _ => isNarrow_of_isBlank]
  refine Option.bind_congr fun gap' hgap' => ?_
  have hgap' := hy.add ((taken_run? hgap').narrow fun _ => isNarrow_of_isBlank)
  rw [hgap'.drop_octets, coordinate_octets]
  refine Option.bind_congr fun z hz => ?_
  have hz := hgap'.add ((taken_coordinate hz).narrow fun _ => isNarrow_of_isSolidChar)
  rw [hz.drop_octets, head?_any_octets fun _ => isNarrow_of_isPathChar]

end Mcfunction.Scan
