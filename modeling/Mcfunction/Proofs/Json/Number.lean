import Mcfunction.Proofs.Json.Leaf

/-!
# Numbers as Numerals

The text of every number is a numeral (`first?_numberText`). Its whole digits are a zero or start
with none, there are digits behind its point, and its exponent has a sign and digits. This says
nothing of the value of the numeral, whose last place may differ from that of the number.

The digits come from the search for the shortest decimal. What the search finds lies in an
interval above zero, so its digits write no zero. If it found nothing there could be a zero, but
then the exponent is large enough for a scientific text, where a zero may be the first digit.
-/

namespace Mcfunction

/-! ### Digits of the shortest decimal -/

namespace RoundingInterval

variable {interval : RoundingInterval}

/-- What lies in an interval above zero is positive. -/
theorem pos_of_contains {num den : Nat} (hlow : 0 < interval.low) (hden : 0 < den)
    (h : interval.contains num den) : 0 < num := by
  have hbelow : 0 < interval.low * den := Nat.mul_pos hlow hden
  rcases Nat.eq_zero_or_pos num with rfl | hpos
  · rw [contains, Nat.zero_mul] at h
    cases hclosed : interval.closed with
    | true =>
      simp [hclosed] at h
      omega
    | false => simp [hclosed] at h
  · exact hpos

/-- A decimal in an interval above zero has digits other than zero. -/
theorem pos_of_containsDecimal {decimal : ScaledDigits} (hlow : 0 < interval.low)
    (h : interval.containsDecimal decimal) : 0 < decimal.digits := by
  have hpow : ∀ n, 0 < Nat.pow 10 n := fun n => Nat.pow_pos (by decide)
  unfold containsDecimal quotient at h
  by_cases hexponent : 0 ≤ decimal.exponent
  · rw [if_pos hexponent] at h
    exact Nat.pos_of_mul_pos_right (pos_of_contains hlow Nat.one_pos h)
  · rw [if_neg hexponent] at h
    exact pos_of_contains hlow (hpow _) h

theorem le_roundHalfEven (num den : Nat) : num / den ≤ roundHalfEven num den := by
  rw [roundHalfEven]
  split
  · exact Nat.le_refl _
  · split <;> omega

/-- So has a neighbour of the number that lies in the interval. -/
theorem pos_of_neighbour? {exponent : Int} {decimal : ScaledDigits} (hlow : 0 < interval.low)
    (h : interval.neighbour? exponent = some decimal) : 0 < decimal.digits := by
  rw [neighbour?] at h
  generalize interval.inUnits exponent = units at h
  obtain ⟨num, den⟩ := units
  dsimp only at h
  split at h
  · next hbelow _ =>
    obtain rfl := Option.some.inj h
    exact Nat.lt_of_lt_of_le (pos_of_containsDecimal hlow hbelow) (le_roundHalfEven num den)
  · next hbelow _ =>
    obtain rfl := Option.some.inj h
    exact pos_of_containsDecimal hlow hbelow
  · obtain rfl := Option.some.inj h
    exact Nat.succ_pos _
  · cases h

/-- The search finds digits other than zero, or gives up with an exponent of zero. -/
theorem search_digits (hlow : 0 < interval.low) (leading : Int) (left : Nat) :
    0 < (interval.search leading left).digits ∨ (interval.search leading left).exponent = 0 := by
  induction left with
  | zero => exact .inr rfl
  | succ left ih =>
    rw [search]
    split
    · next decimal hfound => exact .inl (pos_of_neighbour? hlow hfound)
    · exact ih

end RoundingInterval

/-- Zeros at the end are not all there is. -/
theorem ScaledDigits.strip_pos {decimal : ScaledDigits} (h : 0 < decimal.digits) (fuel : Nat) :
    0 < (decimal.strip fuel).digits := by
  induction fuel generalizing decimal with
  | zero => exact h
  | succ fuel ih =>
    rw [strip]
    split
    · exact ih (show 0 < decimal.digits / 10 by omega)
    · exact h

/-- Of a zero, zeros are taken away as long as there is fuel. -/
theorem ScaledDigits.strip_zero (exponent : Int) (fuel : Nat) :
    strip ⟨0, exponent⟩ fuel = ⟨0, exponent + fuel⟩ := by
  induction fuel generalizing exponent with
  | zero => simp [strip]
  | succ fuel ih =>
    have hplace : exponent + 1 + fuel = exponent + (fuel + 1 : Nat) := by omega
    have hnext := ih (exponent + 1)
    rw [hplace] at hnext
    rw [strip, if_pos (Nat.zero_mod 10)]
    simp only [Nat.zero_div]
    exact hnext

namespace Binary64

theorem significand_pos {x : Binary64} (h : x.magnitude ≠ 0) : 0 < x.significand := by
  have hpow : 0 < Nat.pow 2 52 := by decide
  rw [significand]
  split
  · next hexponent =>
    have hsmall : x.magnitude < Nat.pow 2 52 := by
      rw [exponentField, Nat.div_eq_zero_iff] at hexponent
      omega
    rw [fractionField, Nat.mod_eq_of_lt hsmall]
    omega
  · omega

theorem low_pos {x : Binary64} (h : x.magnitude ≠ 0) : 0 < (RoundingInterval.of x).low := by
  have hsignificand := significand_pos h
  have hpow : 0 < Nat.pow 2 (x.place - 1076) := Nat.pow_pos (by decide)
  refine Nat.mul_pos ?_ hpow
  split <;> omega

/-- If the shortest decimal of a number writes a zero, then with a large exponent. -/
theorem shortest_exponent {x : Binary64} (h : x.magnitude ≠ 0) (hzero : x.shortest.digits = 0) :
    x.shortest.exponent = 17 := by
  rw [shortest] at hzero ⊢
  generalize hsearch : (RoundingInterval.of x).search _ 17 = found at hzero ⊢
  have hfound := RoundingInterval.search_digits (low_pos h)
    (RoundingInterval.of x).leadingExponent 17
  rw [hsearch] at hfound
  rcases Nat.eq_zero_or_pos found.digits with hdigits | hpos
  · obtain ⟨digits, exponent⟩ := found
    obtain rfl : digits = 0 := hdigits
    obtain rfl : exponent = 0 := hfound.resolve_left (Nat.lt_irrefl 0)
    rw [ScaledDigits.strip_zero]
    rfl
  · exact absurd hzero (Nat.ne_of_gt (ScaledDigits.strip_pos hpos 17))

end Binary64

namespace Json

open Lexeme

/-! ### Numerals -/

/-- Digits of which the first is no zero can be the whole part of a numeral. -/
theorem isWhole_of_head {digits : List Char} (hne : digits ≠ [])
    (hhead : digits.head? ≠ some '0') : isWhole digits := by
  simp [isWhole, hne, hhead]

/-- A single digit can be the whole part of a numeral. -/
theorem isWhole_singleton (d : Char) : isWhole [d] := by
  simp [isWhole]

section

variable {sign whole fraction digits : List Char} (hsign : sign ∈ minusSigns)

include hsign

/-- Digits around a point are a numeral. -/
theorem takes_point (hwhole : isWhole whole) (hdigits : ∀ c ∈ whole, c.isDigit)
    (hne : fraction ≠ []) (hfraction : ∀ c ∈ fraction, c.isDigit) :
    ∃ value, Takes numeral? (sign ++ (whole ++ '.' :: fraction)) value := by
  have htakes := takes_numeral?_fraction hsign hwhole hdigits hne hfraction
    (show Opens [] by simp [Opens]) takes_exponent?_nil
  rw [List.append_nil] at htakes
  exact ⟨_, htakes⟩

/-- So are digits in scientific notation: the first, the others behind a point if there are any,
and an exponent. -/
theorem takes_scientific (hne : digits ≠ []) (hdigits : ∀ c ∈ digits, c.isDigit)
    (negative : Bool) (exponent : Nat) :
    ∃ value, Takes numeral? (sign ++ (digits.take 1 ++
      (if digits.length = 1 then [] else '.' :: digits.drop 1) ++
        'e' :: (if negative then '-' else '+') :: Nat.toDigits 10 exponent)) value := by
  obtain ⟨d, fraction, rfl⟩ := List.exists_cons_of_ne_nil hne
  have hwhole : ∀ c ∈ [d], c.isDigit := by
    intro c hc
    exact hdigits c (List.mem_cons.mpr (.inl (List.mem_singleton.mp hc)))
  have hfraction : ∀ c ∈ fraction, c.isDigit := fun c hc => hdigits c (by simp [hc])
  have hopens : ∀ chars, Opens ('e' :: chars) := by
    intro chars c hc
    exact .inl (by simpa using hc.symm)
  have hexponent := takes_exponent? (.inl rfl)
    (show [if negative then '-' else '+'] ∈ signs by cases negative <;> simp [signs])
    (show Nat.toDigits 10 exponent ≠ [] from Nat.toDigits_ne_nil) isDigit_of_mem_toDigits
  cases fraction with
  | nil => exact ⟨_, takes_numeral?_whole hsign (isWhole_singleton d) hwhole (hopens _) hexponent⟩
  | cons d' fraction =>
    have htakes := takes_numeral?_fraction hsign (isWhole_singleton d) hwhole
      (List.cons_ne_nil d' fraction) hfraction (hopens _) hexponent
    exact ⟨_, by simpa using htakes⟩

/-- The text of a decimal is a numeral behind any sign, if a zero is written with an exponent. -/
theorem takes_render {decimal : ScaledDigits}
    (hzero : decimal.digits = 0 → numberLayout.highest < decimal.exponent) :
    ∃ value, Takes numeral? (sign ++ numberLayout.render decimal) value := by
  have hne : Nat.toDigits 10 decimal.digits ≠ [] := Nat.toDigits_ne_nil
  have hdigits : ∀ c ∈ Nat.toDigits 10 decimal.digits, c.isDigit := isDigit_of_mem_toDigits
  have hhead : numberLayout.highest < decimal.exponent ∨
      (Nat.toDigits 10 decimal.digits).head? ≠ some '0' :=
    (Nat.eq_zero_or_pos decimal.digits).imp hzero head?_toDigits
  have hzeros : ∀ n, ∀ c ∈ List.replicate n '0', c.isDigit := by
    intro n c hc
    rw [List.eq_of_mem_replicate hc]
    rfl
  rw [DecimalLayout.render]
  generalize Nat.toDigits 10 decimal.digits = digits at hne hdigits hhead ⊢
  have hlength : 0 < digits.length := List.length_pos_iff.mpr hne
  dsimp only
  split
  · next hrange =>
    obtain ⟨-, hhighest⟩ := hrange
    have hhead := hhead.resolve_left (by omega)
    split
    · -- the point stands behind all digits
      have hwhole : isWhole (digits ++ List.replicate decimal.exponent.toNat '0') := by
        refine isWhole_of_head (by simp [hne]) ?_
        rwa [List.head?_append, Option.or_of_isSome (by simp [hne])]
      exact takes_point hsign hwhole
        (fun c hc => (List.mem_append.mp hc).elim (hdigits c) (hzeros _ c))
        (List.cons_ne_nil '0' []) (List.all_eq_true.mp (by decide))
    · split
      · -- among them
        have htake : isWhole (digits.take ((decimal.exponent + digits.length - 1).toNat + 1)) := by
          refine isWhole_of_head (by simp [hne]) ?_
          rwa [List.head?_take, if_neg (Nat.succ_ne_zero _)]
        have hdrop : digits.drop ((decimal.exponent + digits.length - 1).toNat + 1) ≠ [] := by
          rw [ne_eq, List.drop_eq_nil_iff]
          omega
        exact takes_point hsign htake (fun c hc => hdigits c (List.mem_of_mem_take hc)) hdrop
          fun c hc => hdigits c (List.mem_of_mem_drop hc)
      · -- or before them
        exact takes_point hsign (isWhole_singleton '0') (List.all_eq_true.mp (by decide))
          (by simp [hne]) fun c hc => (List.mem_append.mp hc).elim (hzeros _ c) (hdigits c)
  · have hscientific := takes_scientific hsign hne hdigits
      (decide (decimal.exponent + digits.length - 1 < 0))
      (decimal.exponent + digits.length - 1).natAbs
    simpa only [decide_eq_true_eq] using hscientific

end

/-! ### Numbers -/

/-- The text of a number is one lexeme. -/
theorem first?_numberText (value : Binary64) :
    ∃ read, first? (numberText value).toList = some (.scalar read, []) := by
  rw [numberText]
  split
  · have hsign : (if value.isNegative then ['-'] else []) ∈ minusSigns := by
      cases value.isNegative <;> simp [minusSigns]
    rw [DecimalLayout.renderNumber, String.toList_ofList]
    generalize (if value.isNegative then ['-'] else []) = sign at hsign ⊢
    have htakes : ∃ read, Takes numeral? (sign ++ if value.magnitude = 0 then ['0', '.', '0']
        else numberLayout.render value.shortest) read := by
      split
      · exact takes_point hsign (isWhole_singleton '0') (List.all_eq_true.mp (by decide))
          (List.cons_ne_nil '0' []) (List.all_eq_true.mp (by decide))
      · next hmagnitude =>
        refine takes_render hsign fun hzero => ?_
        rw [Binary64.shortest_exponent hmagnitude hzero]
        decide
    obtain ⟨read, htakes⟩ := htakes
    exact ⟨read, first?_of_numeral? htakes.self⟩
  · exact ⟨some .null, rfl⟩

/-- So is the text of an integer, whatever its size. -/
theorem exists_first?_integerText (value : Int) :
    ∃ read, first? (integerText value).toList = some (.scalar read, []) := by
  have hread : ∀ sign ∈ minusSigns, ∃ read,
      numeral? (sign ++ Nat.toDigits 10 value.natAbs) = some (read, []) := by
    intro sign hsign
    have htakes := takes_numeral?_whole hsign (isWhole_toDigits value.natAbs)
      isDigit_of_mem_toDigits (show Opens [] by simp [Opens]) takes_exponent?_nil
    rw [List.append_nil] at htakes
    exact ⟨_, htakes.self⟩
  have htext : ∃ sign ∈ minusSigns,
      (integerText value).toList = sign ++ Nat.toDigits 10 value.natAbs := by
    rw [integerText, String.toList_ofList]
    split
    · exact ⟨['-'], by simp [minusSigns], rfl⟩
    · exact ⟨[], by simp [minusSigns], rfl⟩
  obtain ⟨sign, hsign, htext⟩ := htext
  obtain ⟨read, hread⟩ := hread sign hsign
  exact ⟨read, htext ▸ first?_of_numeral? hread⟩

end Json

end Mcfunction
