import Mcfunction.Proofs.Written.Scan

/-!
# Numerals Are Read as Far as They Go

The grammar of numerals says what a numeral is, and the recognizers take one in a single pass
from the left. Here the two meet: what a recognizer takes is a numeral, and no longer text at the
front is one. A point, an exponent letter or a sign that no digit follows is left out because
with it the text would be no numeral.

Each part is treated alike: what is taken is of the kind (`decimal_kind`), and a text of the kind
that stands at the front is taken with it (`Mantissa.le_decimal`).

## Main results

* `Recognizes.eq_some_iff`, `Recognizes.eq_none_iff`: a recognizer of a kind takes the longest
  text of the kind, and nothing only where there is none.
* `number_recognizes`, `coordinateOffset_recognizes`: so do the recognizers of numbers and of the
  offsets of coordinates.
-/

namespace Mcfunction

/-- A mantissa with an optional minus sign, as the offset of a coordinate has it. -/
inductive SignedMantissa : List Char → Prop
  /-- A mantissa without a sign. -/
  | positive {mantissa} : Mantissa mantissa → SignedMantissa mantissa
  /-- A mantissa with a minus sign. -/
  | negative {mantissa} : Mantissa mantissa → SignedMantissa ('-' :: mantissa)

namespace Scan

/-- The longest text of a kind at the front. -/
structure Longest (Kind : List Char → Prop) (chars : List Char) (count : Nat) : Prop where
  /-- The characters are there. -/
  le_length : count ≤ chars.length
  /-- They are of the kind. -/
  kind : Kind (chars.take count)
  /-- No more characters are of the kind. -/
  le_count : ∀ {more}, more ≤ chars.length → Kind (chars.take more) → more ≤ count

/-- A recognizer of the texts of a kind takes nothing else, and of what stands at the front at
least as much as is of the kind. -/
structure Recognizes (recognizer : List Char → Option Nat) (Kind : List Char → Prop) : Prop where
  /-- The characters are there. -/
  le_length : ∀ {chars n}, recognizer chars = some n → n ≤ chars.length
  /-- What is taken is of the kind. -/
  kind : ∀ {chars n}, recognizer chars = some n → Kind (chars.take n)
  /-- A text of the kind at the front is taken, and perhaps more. -/
  le_count : ∀ {piece}, Kind piece → ∀ tail,
    ∃ n, recognizer (piece ++ tail) = some n ∧ piece.length ≤ n

variable {Kind : List Char → Prop} {chars piece tail : List Char} {p : Char → Bool} {m n : Nat}

namespace Recognizes

variable {recognizer : List Char → Option Nat}

theorem exists_ge (h : Recognizes recognizer Kind) (hm : m ≤ chars.length)
    (hkind : Kind (chars.take m)) : ∃ n, recognizer chars = some n ∧ m ≤ n := by
  obtain ⟨n, hn, hle⟩ := h.le_count hkind (chars.drop m)
  rw [List.take_append_drop] at hn
  rw [List.length_take_of_le hm] at hle
  exact ⟨n, hn, hle⟩

/-- A recognizer takes the longest text of its kind. -/
theorem eq_some_iff (h : Recognizes recognizer Kind) :
    recognizer chars = some n ↔ Longest Kind chars n := by
  constructor
  · intro hn
    refine ⟨h.le_length hn, h.kind hn, fun hm hkind => ?_⟩
    obtain ⟨n', hn', hle⟩ := h.exists_ge hm hkind
    rwa [Option.some.inj (hn.symm.trans hn')]
  · intro hn
    obtain ⟨n', hn', hle⟩ := h.exists_ge hn.le_length hn.kind
    rw [hn', Nat.le_antisymm (hn.le_count (h.le_length hn') (h.kind hn')) hle]

/-- A recognizer takes nothing only where no text of its kind stands. -/
theorem eq_none_iff (h : Recognizes recognizer Kind) :
    recognizer chars = none ↔ ∀ n ≤ chars.length, ¬ Kind (chars.take n) := by
  constructor
  · intro hnone n hn hkind
    obtain ⟨n', hn', -⟩ := h.exists_ge hn hkind
    rw [hnone] at hn'
    cases hn'
  · intro hnone
    rcases hn : recognizer chars with _ | n
    · rfl
    · exact absurd (h.kind hn) (hnone n (h.le_length hn))

/-- Of a whole text of the kind nothing is left. -/
theorem eq_length (h : Recognizes recognizer Kind) (hkind : Kind chars) :
    recognizer chars = some chars.length := by
  obtain ⟨n, hn, hle⟩ := h.le_count hkind []
  rw [List.append_nil] at hn
  rw [hn, Nat.le_antisymm (h.le_length hn) hle]

end Recognizes

/-! ### Rows -/

theorem row_take_run (h : 0 < run p chars) : Row p (chars.take (run p chars)) := by
  rw [take_run]
  exact ⟨List.ne_nil_of_length_pos h, fun _ => List.mem_takeWhile_imp⟩

/-! ### Mantissas -/

/-- The whole part and the fraction of a mantissa with a point. -/
theorem decimal_of_point {digits : List Char} (hwhole : run Char.isDigit chars = m)
    (hpoint : chars.drop m = '.' :: digits) (hfraction : run Char.isDigit digits = n)
    (hpos : 0 < n) : decimal chars = some (m + 1 + n) := by
  simp [decimal, hwhole, hpoint, hfraction, hpos]

/-- What is taken as a mantissa is one. -/
theorem decimal_kind (h : decimal chars = some n) : Mantissa (chars.take n) := by
  have hwhole : ∀ {m}, m = run Char.isDigit chars → 0 < m → Mantissa (chars.take m) := by
    rintro m rfl hpos
    exact .whole (row_take_run hpos)
  unfold decimal at h
  dsimp only at h
  split at h
  · rename_i digits hdrop
    split_ifs at h with hfraction hpos
    · cases h
      have hsplit : chars.take (run Char.isDigit chars + 1 + run Char.isDigit digits) =
          chars.take (run Char.isDigit chars) ++ '.' :: digits.take (run Char.isDigit digits) := by
        rw [Nat.add_assoc, List.take_add, hdrop, Nat.add_comm 1, List.take_succ_cons]
      rw [hsplit]
      rcases Nat.eq_zero_or_pos (run Char.isDigit chars) with hzero | hpos
      · rw [hzero, List.take_zero, List.nil_append]
        exact .fraction (row_take_run hfraction)
      · exact .decimal (row_take_run hpos) (row_take_run hfraction)
    · cases h
      exact hwhole rfl hpos
  · rw [if_neg (Nat.lt_irrefl 0)] at h
    split_ifs at h with hpos
    cases h
    exact hwhole rfl hpos

end Scan

open Scan

section

variable {mantissa exponent piece tail : List Char}

/-- A mantissa holds digits and a point. -/
theorem Mantissa.isDigit_or_point (h : Mantissa mantissa) :
    ∀ c ∈ mantissa, c.isDigit ∨ c = '.' := by
  have hrow : ∀ {digits}, Row Char.isDigit digits → ∀ c ∈ digits, c.isDigit ∨ c = '.' :=
    fun h c hc => .inl (h.2 c hc)
  cases h with
  | whole h => exact hrow h
  | decimal hwhole hfraction =>
      rw [List.forall_mem_append, List.forall_mem_cons]
      exact ⟨hrow hwhole, .inr rfl, hrow hfraction⟩
  | fraction h => exact List.forall_mem_cons.mpr ⟨.inr rfl, hrow h⟩

/-- A mantissa at the front is taken, and what is taken reaches at least as far. -/
theorem Mantissa.le_decimal (h : Mantissa mantissa) (tail : List Char) :
    ∃ n, Scan.decimal (mantissa ++ tail) = some n ∧ mantissa.length ≤ n := by
  cases h with
  | whole h =>
      have hrun := run_append_of_forall h.2 tail
      have hpos := h.length_pos
      rw [Scan.decimal]
      rw [hrun]
      split_ifs
      · exact ⟨_, rfl, by omega⟩
      · exact ⟨_, rfl, by omega⟩
      · omega
  | @decimal whole fraction hwhole hfraction =>
      have hrun : run Char.isDigit (whole ++ '.' :: (fraction ++ tail)) = whole.length := by
        rw [run_append_cons (by decide), hwhole.run_eq]
      have hpos := hfraction.length_pos
      rw [List.append_assoc, List.cons_append, decimal_of_point hrun List.drop_left
        (run_append_of_forall hfraction.2 tail) (by omega)]
      refine ⟨_, rfl, ?_⟩
      rw [List.length_append, List.length_cons]
      omega
  | @fraction digits h =>
      have hrun : run Char.isDigit ('.' :: (digits ++ tail)) = 0 := by
        rw [run_cons, if_neg (by decide)]
      have hpos := h.length_pos
      rw [List.cons_append, decimal_of_point hrun List.drop_zero (run_append_of_forall h.2 tail)
        (by omega)]
      refine ⟨_, rfl, ?_⟩
      rw [List.length_cons]
      omega

/-- An exponent at the front is taken, and what is taken reaches at least as far. -/
theorem Exponent.le_exponent (h : Exponent piece) (tail : List Char) :
    piece.length ≤ Scan.exponent (piece ++ tail) := by
  cases h with
  | absent => exact Nat.zero_le _
  | @present letter sign digits hletter hsign hdigits =>
      have hcount : exponentSign (sign ++ digits ++ tail) = sign.length := by
        rcases hsign with rfl | rfl | rfl
        · obtain ⟨c, digits, rfl⟩ := List.exists_cons_of_ne_nil hdigits.1
          have hc := hdigits.2 c List.mem_cons_self
          have hplus : c ≠ '+' := ne_of_class hc (by decide)
          have hminus : c ≠ '-' := ne_of_class hc (by decide)
          simp [exponentSign, hplus, hminus]
        · rfl
        · rfl
      have hdrop : (sign ++ digits ++ tail).drop sign.length = digits ++ tail := by
        rw [List.append_assoc, List.drop_left]
      have hpos := hdigits.length_pos
      obtain ⟨k, hk⟩ : ∃ k, run Char.isDigit (digits ++ tail) = k + 1 ∧ digits.length ≤ k + 1 := by
        have hrun := run_append_of_forall hdigits.2 tail
        exact ⟨run Char.isDigit (digits ++ tail) - 1, by omega, by omega⟩
      have hmark : (letter == 'e' || letter == 'E') = true := by simpa using hletter
      rw [List.cons_append, Scan.exponent, if_pos hmark]
      dsimp only
      rw [hcount, hdrop, hk.1]
      simp only [List.length_cons, List.length_append]
      omega

end

namespace Scan

variable {Kind : List Char → Prop} {chars piece tail : List Char} {m n : Nat}

/-- What is taken as an exponent is one. -/
theorem exponent_kind (chars : List Char) : Exponent (chars.take (exponent chars)) := by
  unfold exponent
  split
  · rename_i c tail
    split_ifs with hletter
    · have hsign : tail.take (exponentSign tail) = [] ∨ tail.take (exponentSign tail) = ['+'] ∨
          tail.take (exponentSign tail) = ['-'] := by
        unfold exponentSign
        split <;> simp
      dsimp only
      split
      · exact .absent
      · rename_i digits hdigits
        have hpos : 0 < run Char.isDigit (tail.drop (exponentSign tail)) := by omega
        have hrow := row_take_run hpos
        rw [hdigits] at hrow
        rw [Nat.add_assoc, Nat.add_comm 1, List.take_succ_cons, List.take_add]
        exact .present (by simpa using hletter) hsign hrow
    · exact .absent
  · exact .absent

/-! ### Numbers -/

/-- The minus sign that is taken, and the mantissa behind it, are a mantissa with a sign. -/
theorem minus_cases (chars : List Char) :
    minus chars = 0 ∨ minus chars = 1 ∧ ∃ tail, chars = '-' :: tail := by
  unfold minus
  split
  · exact .inr ⟨rfl, _, rfl⟩
  · exact .inl rfl

/-- What is taken as a number is a numeral. -/
theorem number_kind (h : number chars = some n) : Numeral (chars.take n) := by
  unfold number at h
  dsimp only at h
  split at h
  · cases h
  · rename_i mantissa hmantissa
    cases h
    have hkind := decimal_kind hmantissa
    have hexponent := exponent_kind (chars.drop (minus chars + mantissa))
    rw [List.take_add, List.take_add]
    rcases minus_cases chars with hzero | ⟨hone, tail, rfl⟩
    · rw [hzero, List.drop_zero] at hkind
      rw [hzero, Nat.zero_add, List.drop_zero, List.take_zero, List.nil_append]
      rw [hzero, Nat.zero_add] at hexponent
      exact .positive hkind hexponent
    · rw [hone] at hkind hexponent ⊢
      exact .negative hkind hexponent

/-- A mantissa and an exponent at the front are taken, and what is taken reaches at least as far.
If more than the mantissa is taken as such, the text behind it starts no exponent. -/
theorem le_decimal_exponent {mantissa exponent : List Char} (h : Mantissa mantissa)
    (hexponent : Exponent exponent) (tail : List Char) :
    ∃ n, decimal (mantissa ++ (exponent ++ tail)) = some n ∧
      mantissa.length + exponent.length ≤
        n + Scan.exponent ((mantissa ++ (exponent ++ tail)).drop n) := by
  obtain ⟨n, hn, hle⟩ := h.le_decimal (exponent ++ tail)
  refine ⟨n, hn, ?_⟩
  rcases Nat.eq_or_lt_of_le hle with rfl | hlt
  · rw [List.drop_left]
    have := hexponent.le_exponent tail
    omega
  · -- digits and points only are taken as a mantissa, so no exponent letter is
    cases hexponent with
    | absent => exact Nat.le_trans hle (Nat.le_add_right _ _)
    | @present letter sign digits hletter _ _ =>
        have hmem : letter ∈ (mantissa ++ (letter :: (sign ++ digits) ++ tail)).take n := by
          obtain ⟨k, hk⟩ := Nat.exists_eq_add_of_lt hlt
          rw [hk, Nat.add_assoc, List.take_append]
          simp
        rcases hletter with rfl | rfl
        · exact absurd ((decimal_kind hn).isDigit_or_point _ hmem) (by decide)
        · exact absurd ((decimal_kind hn).isDigit_or_point _ hmem) (by decide)

theorem le_number (h : Numeral piece) (tail : List Char) :
    ∃ n, number (piece ++ tail) = some n ∧ piece.length ≤ n := by
  cases h with
  | @positive mantissa exponent hmantissa hexponent =>
      obtain ⟨n, hn, hle⟩ := le_decimal_exponent hmantissa hexponent tail
      have hminus := hmantissa.minus_append (exponent ++ tail)
      rw [List.append_assoc, number]
      rw [hminus, List.drop_zero, hn]
      refine ⟨_, rfl, ?_⟩
      rw [List.length_append, Nat.zero_add]
      exact hle
  | @negative mantissa exponent hmantissa hexponent =>
      obtain ⟨n, hn, hle⟩ := le_decimal_exponent hmantissa hexponent tail
      have hminus : minus ('-' :: (mantissa ++ exponent ++ tail)) = 1 := rfl
      rw [List.cons_append, number]
      rw [hminus, List.drop_succ_cons, List.drop_zero, List.append_assoc, hn]
      refine ⟨_, rfl, ?_⟩
      rw [List.length_cons, List.length_append, Nat.add_comm 1 n, List.drop_succ_cons]
      omega

/-- A number is a numeral. -/
theorem number_recognizes : Recognizes number Numeral where
  le_length h := (inline_number h).le_length
  kind := number_kind
  le_count := le_number

/-- A number has the type letter that comes next, if one does. -/
theorem suffixedNumber_iff {suffix : Option Char} :
    suffixedNumber chars = some (m, suffix) ↔ ∃ n, number chars = some n ∧
      match suffix with
      | some letter => (chars.drop n).head? = some letter ∧ isSuffixLetter letter ∧ m = n + 1
      | none => m = n ∧ ∀ letter, (chars.drop n).head? = some letter →
          isSuffixLetter letter = false := by
  rw [suffixedNumber]
  rcases number chars with _ | n
  · simp
  · simp only [Option.some.injEq, exists_eq_left']
    rcases chars.drop n with _ | ⟨x, tail⟩
    · cases suffix <;> simp [@eq_comm _ n m]
    · by_cases hx : isSuffixLetter x
      · cases suffix with
        | none => simp [hx]
        | some letter =>
            simp only [hx, if_true, List.head?_cons, Option.some.injEq, Prod.mk.injEq]
            constructor
            · rintro ⟨rfl, rfl⟩
              exact ⟨rfl, hx, rfl⟩
            · rintro ⟨rfl, -, rfl⟩
              exact ⟨rfl, rfl⟩
      · cases suffix with
        | none => simp [hx, @eq_comm _ n m]
        | some letter =>
            simp only [hx, Bool.false_eq_true, if_false, List.head?_cons, Option.some.injEq,
              Prod.mk.injEq, reduceCtorEq, and_false, false_iff]
            rintro ⟨rfl, hletter, -⟩
            exact hx hletter

/-! ### Offsets of coordinates -/

/-- The offset of a relative or local coordinate, if it has one. -/
def coordinateOffset (chars : List Char) : Option Nat :=
  (decimal (chars.drop (minus chars))).map (minus chars + ·)

/-- The offset of a coordinate is a mantissa with an optional sign. -/
theorem coordinateOffset_recognizes : Recognizes coordinateOffset SignedMantissa where
  le_length h := by
    obtain ⟨mantissa, hmantissa, rfl⟩ := Option.map_eq_some_iff.mp h
    exact ((inline_minus _).add (inline_decimal hmantissa)).le_length
  kind {chars n} h := by
    obtain ⟨mantissa, hmantissa, rfl⟩ := Option.map_eq_some_iff.mp h
    have hkind := decimal_kind hmantissa
    rw [List.take_add]
    rcases minus_cases chars with hzero | ⟨hone, tail, rfl⟩
    · rw [hzero, List.drop_zero] at hkind ⊢
      exact .positive hkind
    · rw [hone] at hkind ⊢
      exact .negative hkind
  le_count {piece} h tail := by
    cases h with
    | positive h =>
        obtain ⟨n, hn, hle⟩ := h.le_decimal tail
        rw [coordinateOffset, h.minus_append, List.drop_zero, hn]
        exact ⟨_, rfl, hle.trans_eq (Nat.zero_add n).symm⟩
    | @negative mantissa h =>
        obtain ⟨n, hn, hle⟩ := h.le_decimal tail
        have hminus : minus ('-' :: mantissa ++ tail) = 1 := rfl
        rw [coordinateOffset, hminus, List.cons_append, List.drop_succ_cons, List.drop_zero, hn]
        refine ⟨_, rfl, ?_⟩
        rw [List.length_cons, Nat.add_comm]
        exact Nat.add_le_add_left hle 1

/-- A relative or local coordinate is its mark and its offset, if there is one. -/
theorem coordinate_mark {c : Char} (hc : c = '~' ∨ c = '^') (chars : List Char) :
    coordinate (c :: chars) = some (1 + (coordinateOffset chars).getD 0) := by
  have hmark : (c == '~' || c == '^') = true := by simpa using hc
  rw [coordinate, if_pos hmark, coordinateOffset]
  dsimp only
  split
  · rename_i mantissa hmantissa
    rw [hmantissa, Option.map_some, Option.getD_some, Nat.add_assoc]
  · rename_i hmantissa
    rw [hmantissa]
    rfl

/-- Any other coordinate is a number with its type letter. -/
theorem coordinate_plain {c : Char} (hc : ¬ (c = '~' ∨ c = '^')) (chars : List Char) :
    coordinate (c :: chars) = (suffixedNumber (c :: chars)).map Prod.fst := by
  have hmark : ¬ ((c == '~' || c == '^') = true) := by simpa using hc
  rw [coordinate, if_neg hmark]

/-! ### Coordinates -/

/-- The first character of a coordinate part is no blank. -/
theorem coordinate_head (h : coordinate chars = some n) :
    ∃ x tail, chars = x :: tail ∧ isBlank x = false := by
  obtain ⟨x, tail, -, rfl, -, hx, -⟩ := coordinate_taken h
  have hspace : x ≠ ' ' := ne_of_class hx (by decide)
  have htab : x ≠ '\t' := ne_of_class hx (by decide)
  have hreturn : x ≠ '\r' := ne_of_class hx (by decide)
  exact ⟨x, tail, rfl, by simp [isBlank, hspace, htab, hreturn]⟩

/-- A coordinate part some way on ends within the text. -/
theorem coordinate_end_le (hm : m ≤ chars.length) (h : coordinate (chars.drop m) = some n) :
    m + n ≤ chars.length := by
  have hle := (inline_coordinate h).le_length
  rw [List.length_drop] at hle
  omega

/-- So do blanks. -/
theorem blanks_end_le (hm : m ≤ chars.length) (h : run? isBlank (chars.drop m) = some n) :
    m + n ≤ chars.length := by
  obtain ⟨rfl, -⟩ := run?_eq_some.mp h
  have hle := run_le_length isBlank (chars.drop m)
  rw [List.length_drop] at hle
  omega

/-- Blanks in front of a coordinate part are all the blanks there are. -/
theorem run?_blanks (hgap : Row isBlank (chars.take m)) (hm : m ≤ chars.length)
    (h : coordinate (chars.drop m) = some n) : run? isBlank chars = some m := by
  obtain ⟨x, tail, hdrop, hx⟩ := coordinate_head h
  have hrun : run? isBlank (chars.take m ++ x :: tail) = some (chars.take m).length :=
    hgap.run?_append_cons hx
  rwa [← hdrop, List.take_append_drop, List.length_take_of_le hm] at hrun

/-- A triple is made of three parts with blanks between them and no path character behind. -/
theorem coordinates_iff {parts : Triple (Nat × Nat)} :
    coordinates chars = some parts ↔ ∃ x gap y gap' z, coordinate chars = some x ∧
      run? isBlank (chars.drop x) = some gap ∧ coordinate (chars.drop (x + gap)) = some y ∧
      run? isBlank (chars.drop (x + gap + y)) = some gap' ∧
      coordinate (chars.drop (x + gap + y + gap')) = some z ∧
      (∀ c, (chars.drop (x + gap + y + gap' + z)).head? = some c → isPathChar c = false) ∧
      parts = ⟨(0, x), (x + gap, x + gap + y),
        (x + gap + y + gap', x + gap + y + gap' + z)⟩ := by
  have hany : ∀ head : Option Char,
      (∀ c, head = some c → isPathChar c = false) ↔ ¬ head.any isPathChar = true := by
    intro head
    cases head <;> simp
  simp only [coordinates, Option.bind_eq_bind, Option.bind_eq_some_iff, hany]
  constructor
  · rintro ⟨x, hx, gap, hgap, y, hy, gap', hgap', z, hz, h⟩
    split_ifs at h with hpath
    exact ⟨x, gap, y, gap', z, hx, hgap, hy, hgap', hz, hpath, (Option.some.inj h).symm⟩
  · rintro ⟨x, gap, y, gap', z, hx, hgap, hy, hgap', hz, hpath, rfl⟩
    exact ⟨x, hx, gap, hgap, y, hy, gap', hgap', z, hz, if_neg hpath⟩

end Scan

end Mcfunction
