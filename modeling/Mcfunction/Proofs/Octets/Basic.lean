import Mcfunction.Proofs.Bytes
import Mcfunction.Proofs.Scan.Token

/-!
# The Bytes of a Text as Characters

The recognizers are functions of characters. They can be run on the bytes of a text, too, if each
byte is taken for the character of its number: `octets` is what they see then. A character is
narrow if it is one byte, and then it is its own byte. No byte of a wide character is narrow, so a
recognizer that compares with narrow characters only mistakes none of them for one.

What is found in the bytes is counted in bytes; `Aligned` says that so many bytes are so many
characters. A recognizer that takes narrow characters only answers with the same count.

## Main results

* `answer_octets`: what depends on a narrow character at the front is the same for the bytes.
* `prefix_octets_iff`: narrow text stands in front of both or of neither.
* `aligned_run`, `aligned_repeated`: runs and repetitions take the same text from the bytes.
-/

namespace Mcfunction

namespace Scan

variable {chars tail : List Char} {p : Char → Bool} {x : Char} {n m bytes : Nat}

/-! ### Narrow characters -/

/-- A character of one byte. -/
def isNarrow (x : Char) : Bool :=
  x.toNat < 128

/-- A character is narrow if it has one byte. -/
theorem isNarrow_iff : isNarrow x ↔ x.utf8Size = 1 := by
  rw [isNarrow, decide_eq_true_iff]
  refine ⟨fun h => Char.utf8Size_eq_one_iff.mpr ?_, toNat_lt_of_short⟩
  exact UInt32.le_iff_toNat_le.mpr (Nat.le_of_lt_succ h)

/-- A wide character is none of the narrow ones. -/
theorem ne_of_wide {y : Char} (hx : isNarrow x = false) (hy : isNarrow y) : x ≠ y := by
  rintro rfl
  exact Bool.false_ne_true (hx.symm.trans hy)

/-- A class of narrow characters holds no wide one. -/
theorem eq_false_of_wide (hp : ∀ x, p x → isNarrow x) (hx : isNarrow x = false) : p x = false := by
  by_contra h
  exact Bool.false_ne_true (hx.symm.trans (hp x (by simpa using h)))

/-- What is no larger than a narrow character is narrow. -/
theorem isNarrow_of_le {y : Char} (h : x.val ≤ y.val) (hy : isNarrow y) : isNarrow x := by
  rw [isNarrow, decide_eq_true_iff] at hy ⊢
  exact Nat.lt_of_le_of_lt (UInt32.le_iff_toNat_le.mp h) hy

/-- Letters and digits are narrow. -/
theorem isNarrow_of_isAlphanum (h : x.isAlphanum) : isNarrow x := by
  have hclass : ((x.isUpper || x.isLower) || x.isDigit) = true := h
  rw [Bool.or_eq_true, Bool.or_eq_true] at hclass
  rcases hclass with (hupper | hlower) | hdigit
  · exact isNarrow_of_le (y := 'Z') (of_decide_eq_true hupper).2 rfl
  · exact isNarrow_of_le (y := 'z') (of_decide_eq_true (Bool.and_eq_true_iff.mp hlower).2) rfl
  · exact isNarrow_of_le (y := '9') (of_decide_eq_true (Bool.and_eq_true_iff.mp hdigit).2) rfl

/-- Characters of words are narrow. -/
theorem isNarrow_of_isWordChar (h : isWordChar x) : isNarrow x := by
  simp only [isWordChar, Bool.or_eq_true, beq_iff_eq] at h
  rcases h with (h | rfl) | rfl
  · exact isNarrow_of_isAlphanum h
  · rfl
  · rfl

/-- Characters of leaves are narrow. -/
theorem isNarrow_of_isLeafChar (h : isLeafChar x) : isNarrow x := by
  simp only [isLeafChar, isTokenChar, isPathChar, isBlank, Bool.or_eq_true, beq_iff_eq] at h
  rcases h with (((((((h | rfl) | rfl) | (rfl | rfl) | rfl)) | rfl) | rfl) | rfl) | rfl
  · exact isNarrow_of_isWordChar h
  all_goals rfl

/-- Characters of tokens are narrow. -/
theorem isNarrow_of_isTokenChar (h : isTokenChar x) : isNarrow x :=
  isNarrow_of_isLeafChar (isLeafChar_of_isTokenChar h)

/-- Solid characters are narrow. -/
theorem isNarrow_of_isSolidChar (h : isSolidChar x) : isNarrow x :=
  isNarrow_of_isLeafChar (isLeafChar_of_isSolidChar h)

/-- Characters of resource paths are narrow. -/
theorem isNarrow_of_isPathChar (h : isPathChar x) : isNarrow x :=
  isNarrow_of_isTokenChar (isTokenChar_of_isPathChar h)

/-- Blanks are narrow. -/
theorem isNarrow_of_isBlank (h : isBlank x) : isNarrow x :=
  isNarrow_of_isLeafChar (isLeafChar_of_isBlank h)

/-- Small letters are narrow. -/
theorem isNarrow_of_isLower (h : x.isLower) : isNarrow x :=
  isNarrow_of_isTokenChar (isTokenChar_of_isLower h)

/-- Digits are narrow. -/
theorem isNarrow_of_isDigit (h : x.isDigit) : isNarrow x :=
  isNarrow_of_isTokenChar (isTokenChar_of_isDigit h)

/-- Characters of names are narrow. -/
theorem isNarrow_of_isNameChar (h : isNameChar x) : isNarrow x := by
  simp only [isNameChar, Bool.or_eq_true, beq_iff_eq] at h
  rcases h with h | rfl
  · exact isNarrow_of_isAlphanum h
  · rfl

/-! ### The bytes of a text -/

/-- The bytes of a text, each taken for the character of its number. -/
def octets (chars : List Char) : List Char :=
  (chars.flatMap String.utf8EncodeChar).map Char.ofUInt8

@[simp] theorem octets_nil : octets [] = [] := rfl

/-- The bytes of a text are those of both its parts. -/
theorem octets_append (front : List Char) :
    octets (front ++ tail) = octets front ++ octets tail := by
  rw [octets, List.flatMap_append, List.map_append, octets, octets]

/-- A text has as many bytes as its characters together. -/
theorem length_octets (chars : List Char) : (octets chars).length = byteWidth chars := by
  rw [octets, List.length_map, length_flatMap_utf8EncodeChar]

/-- The bytes of a text start with those of its first character. -/
theorem octets_cons_eq (x : Char) (tail : List Char) :
    octets (x :: tail) = (String.utf8EncodeChar x).map Char.ofUInt8 ++ octets tail := by
  rw [octets, List.flatMap_cons, List.map_append, octets]

/-- A character of one byte is its own byte. -/
theorem octets_cons (hx : isNarrow x) : octets (x :: tail) = x :: octets tail := by
  have hsize := isNarrow_iff.mp hx
  have hchar : Char.ofUInt8 x.toUInt8 = x := Char.toNat_inj.mp (toNat_toUInt8_of_short hsize)
  rw [octets_cons_eq, utf8EncodeChar_of_short hsize, List.map_singleton, hchar,
    List.singleton_append]

/-- No byte of a longer character is a character of one byte. -/
theorem octets_cons_wide (hx : isNarrow x = false) (tail : List Char) :
    ∃ y front, isNarrow y = false ∧ (∀ z ∈ front, isNarrow z = false) ∧
      (y :: front).length = x.utf8Size ∧ octets (x :: tail) = y :: front ++ octets tail := by
  have hsize : x.utf8Size ≠ 1 := fun h => Bool.false_ne_true (hx.symm.trans (isNarrow_iff.mpr h))
  have hwide : ∀ y ∈ (String.utf8EncodeChar x).map Char.ofUInt8, isNarrow y = false := by
    intro y hy
    obtain ⟨byte, hbyte, rfl⟩ := List.mem_map.mp hy
    exact decide_eq_false (Nat.not_lt_of_le (le_of_mem_utf8EncodeChar hsize hbyte))
  have hlength : ((String.utf8EncodeChar x).map Char.ofUInt8).length = x.utf8Size := by
    rw [List.length_map, String.length_utf8EncodeChar]
  rw [octets_cons_eq]
  rcases hbytes : (String.utf8EncodeChar x).map Char.ofUInt8 with _ | ⟨y, front⟩
  · rw [hbytes] at hlength
    exact absurd hlength.symm x.utf8Size_pos.ne'
  · rw [hbytes] at hwide hlength
    obtain ⟨hy, hfront⟩ := List.forall_mem_cons.mp hwide
    exact ⟨y, front, hy, hfront, hlength, rfl⟩

/-- The bytes of a text start with its first character, or both start with something wide. -/
theorem octets_cases (chars : List Char) :
    chars = [] ∨
      (∃ x tail y rest, chars = x :: tail ∧ octets chars = y :: rest ∧ isNarrow x = false ∧
        isNarrow y = false) ∨
      ∃ x tail, chars = x :: tail ∧ octets chars = x :: octets tail ∧ isNarrow x := by
  rcases chars with _ | ⟨x, tail⟩
  · exact .inl rfl
  · rcases hx : isNarrow x with _ | _
    · obtain ⟨y, front, hy, -, -, hoctets⟩ := octets_cons_wide hx tail
      exact .inr (.inl ⟨x, tail, y, front ++ octets tail, rfl, hoctets, hx, hy⟩)
    · exact .inr (.inr ⟨x, tail, rfl, octets_cons hx, hx⟩)

/-- If the bytes start with a narrow character, the text does. -/
theorem exists_of_octets {rest : List Char} (hx : isNarrow x) (h : octets chars = x :: rest) :
    ∃ tail, chars = x :: tail := by
  rcases octets_cases chars with rfl | ⟨y, tail, z, more, -, hoctets, -, hz⟩ |
    ⟨y, tail, rfl, hoctets, -⟩
  · cases h
  · obtain ⟨rfl, -⟩ := List.cons.inj (hoctets.symm.trans h)
    exact absurd hx (Bool.eq_false_iff.mp hz)
  · obtain ⟨rfl, -⟩ := List.cons.inj (hoctets.symm.trans h)
    exact ⟨tail, rfl⟩

/-- Narrow text stands in front of the bytes just if it stands in front of the text. -/
theorem prefix_octets_iff {front : List Char} (hfront : front.all isNarrow) :
    front <+: octets chars ↔ front <+: chars := by
  induction front generalizing chars with
  | nil => exact iff_of_true List.nil_prefix List.nil_prefix
  | cons x front ih =>
      rw [List.all_cons, Bool.and_eq_true] at hfront
      obtain ⟨hx, hfront⟩ := hfront
      constructor
      · rintro ⟨rest, hoctets⟩
        obtain ⟨tail, rfl⟩ := exists_of_octets hx hoctets.symm
        rw [octets_cons hx] at hoctets
        have htail : front <+: octets tail := ⟨rest, (List.cons.inj hoctets).2⟩
        exact List.cons_prefix_cons.mpr ⟨rfl, (ih hfront).mp htail⟩
      · rintro ⟨rest, rfl⟩
        rw [List.cons_append, octets_cons hx]
        exact List.cons_prefix_cons.mpr ⟨rfl, (ih hfront).mpr ⟨rest, rfl⟩⟩

/-- What is answered at a wide character as at the end of the text, and the same at any other one,
is answered the same on bytes. -/
theorem answer_octets {α : Type} {f : List Char → α}
    (hwide : ∀ x tail, isNarrow x = false → f (x :: tail) = f [])
    (hcons : ∀ x tail, isNarrow x → f (x :: octets tail) = f (x :: tail)) (chars : List Char) :
    f (octets chars) = f chars := by
  rcases octets_cases chars with rfl | ⟨x, tail, y, rest, rfl, hoctets, hx, hy⟩ |
    ⟨x, tail, rfl, hoctets, hx⟩
  · rfl
  · rw [hoctets, hwide y rest hy, hwide x tail hx]
  · rw [hoctets, hcons x tail hx]

/-- Whether one of a class of narrow characters comes next is told by the bytes. -/
theorem head?_any_octets (hp : ∀ x, p x → isNarrow x) (chars : List Char) :
    (octets chars).head?.any p = chars.head?.any p := by
  rcases octets_cases chars with rfl | ⟨x, tail, y, rest, rfl, hoctets, hx, hy⟩ |
    ⟨x, tail, rfl, hoctets, -⟩
  · rfl
  · simp [hoctets, eq_false_of_wide hp hx, eq_false_of_wide hp hy]
  · simp [hoctets]

/-- The last byte tells as much as the first one. -/
theorem getLast?_octets (hx : isNarrow x) (chars : List Char) :
    (octets chars).getLast? = some x ↔ chars.getLast? = some x := by
  rcases List.eq_nil_or_concat chars with rfl | ⟨front, y, rfl⟩
  · rfl
  · rw [List.concat_eq_append, octets_append, List.getLast?_concat]
    rcases hy : isNarrow y with _ | _
    · obtain ⟨z, more, hz, hmore, -, hoctets⟩ := octets_cons_wide hy []
      have hlast := List.getLast_mem (List.cons_ne_nil z more)
      have hwide : isNarrow ((z :: more).getLast (List.cons_ne_nil z more)) = false := by
        rcases List.mem_cons.mp hlast with heq | hmem
        · rw [heq, hz]
        · exact hmore _ hmem
      refine iff_of_false ?_ fun h => ne_of_wide hy hx (Option.some.inj h)
      rw [hoctets, octets_nil, List.append_nil, List.getLast?_append,
        List.getLast?_eq_some_getLast (List.cons_ne_nil z more), Option.some_or]
      exact fun h => ne_of_wide hwide hx (Option.some.inj h)
    · rw [octets_cons hy, octets_nil, List.getLast?_concat]

/-! ### As many bytes as characters -/

/-- The first `count` characters are the first `bytes` bytes. -/
structure Aligned (chars : List Char) (bytes count : Nat) : Prop where
  /-- The characters are there. -/
  le_length : count ≤ chars.length
  /-- They are so many bytes. -/
  byteWidth_take : byteWidth (chars.take count) = bytes

namespace Aligned

/-- No bytes are no characters. -/
theorem zero (chars : List Char) : Aligned chars 0 0 :=
  ⟨Nat.zero_le _, rfl⟩

/-- One more character has its bytes in front. -/
theorem cons (x : Char) (h : Aligned chars bytes n) :
    Aligned (x :: chars) (x.utf8Size + bytes) (n + 1) := by
  refine ⟨Nat.succ_le_succ h.le_length, ?_⟩
  rw [List.take_succ_cons, byteWidth_cons, h.byteWidth_take]

/-- One more narrow character has one byte in front. -/
theorem cons_narrow (hx : isNarrow x) (h : Aligned chars bytes n) :
    Aligned (x :: chars) (bytes + 1) (n + 1) := by
  have hcons := h.cons x
  rwa [isNarrow_iff.mp hx, Nat.add_comm] at hcons

/-- Bytes and characters are aligned part by part. -/
theorem add {bytes' : Nat} (h : Aligned chars bytes n) (h' : Aligned (chars.drop n) bytes' m) :
    Aligned chars (bytes + bytes') (n + m) := by
  refine ⟨?_, ?_⟩
  · have hle := h.le_length
    have hle' := h'.le_length
    rw [List.length_drop] at hle'
    omega
  · rw [List.take_add, byteWidth_append, h.byteWidth_take, h'.byteWidth_take]

/-- A character takes at least one byte. -/
theorem count_le (h : Aligned chars bytes n) : n ≤ bytes := by
  have hle := length_le_byteWidth (chars.take n)
  rwa [h.byteWidth_take, List.length_take_of_le h.le_length] at hle

/-- The first bytes are those of the first characters. -/
theorem take_octets (h : Aligned chars bytes n) :
    (octets chars).take bytes = octets (chars.take n) := by
  conv_lhs => rw [← List.take_append_drop n chars, octets_append]
  rw [← h.byteWidth_take, ← length_octets, List.take_left]

/-- The bytes that are left are those of the characters that are left. -/
theorem drop_octets (h : Aligned chars bytes n) :
    (octets chars).drop bytes = octets (chars.drop n) := by
  conv_lhs => rw [← List.take_append_drop n chars, octets_append]
  rw [← h.byteWidth_take, ← length_octets, List.drop_left]

/-- A last character of one byte can be left out. -/
theorem pred (h : Aligned chars bytes n) (hlast : (chars.take n).getLast? = some x)
    (hx : isNarrow x) : Aligned chars (bytes - 1) (n - 1) := by
  obtain ⟨front, hfront⟩ := List.getLast?_eq_some_iff.mp hlast
  have hlength : n = front.length + 1 := by
    rw [← List.length_take_of_le h.le_length, hfront, List.length_append, List.length_singleton]
  have hwidth : bytes = byteWidth front + 1 := by
    rw [← h.byteWidth_take, hfront, byteWidth_append, byteWidth_cons, isNarrow_iff.mp hx,
      byteWidth_nil]
  have htake : chars.take (n - 1) = front := by
    have hchars := List.take_append_drop n chars
    rw [hfront, List.append_assoc] at hchars
    rw [hlength, Nat.add_sub_cancel, ← hchars, List.take_left]
  exact ⟨(Nat.sub_le n 1).trans h.le_length, by rw [htake, hwidth, Nat.add_sub_cancel]⟩

end Aligned

/-- So many characters are there, and each of them is one byte. -/
abbrev Narrow (chars : List Char) (n : Nat) : Prop :=
  Taken isNarrow chars n

/-- Characters of a narrow class are narrow. -/
theorem Taken.narrow (h : Taken p chars n) (hp : ∀ x, p x → isNarrow x) : Narrow chars n :=
  h.mono hp

namespace Narrow

/-- Narrow characters one after the other are narrow together. -/
theorem add (h : Narrow chars m) (h' : Narrow (chars.drop m) n) : Narrow chars (m + n) :=
  Taken.add h h'

/-- Characters of one byte are as many bytes. -/
theorem aligned (h : Narrow chars n) : Aligned chars n n := by
  induction n generalizing chars with
  | zero => exact .zero _
  | succ n ih =>
      rcases chars with _ | ⟨x, tail⟩
      · exact absurd h.le_length (Nat.not_succ_le_zero n)
      · obtain ⟨hx, h⟩ := h.of_cons
        exact (ih h).cons_narrow hx

/-- As many bytes as narrow characters are left behind. -/
theorem drop_octets (h : Narrow chars n) : (octets chars).drop n = octets (chars.drop n) :=
  h.aligned.drop_octets

/-- Where as many bytes are found, they are these characters. -/
theorem eq_of_aligned (h : Narrow chars n) (h' : Aligned chars bytes n) : bytes = n :=
  h'.byteWidth_take.symm.trans h.aligned.byteWidth_take

end Narrow

/-! ### Runs and repetitions -/

/-- A run takes the same text from bytes, if its class has all wide characters or none. -/
theorem aligned_run (all : Bool) (hp : ∀ x, isNarrow x = false → p x = all)
    (chars : List Char) :
    Aligned chars (run p (octets chars)) (run p chars) := by
  induction chars with
  | nil => exact .zero _
  | cons x tail ih =>
      rcases hx : isNarrow x with _ | _
      · obtain ⟨y, front, hy, hfront, hlength, hoctets⟩ := octets_cons_wide hx tail
        rw [hoctets, run_cons, hp x hx]
        cases all with
        | false =>
            rw [List.cons_append, run_cons, hp y hy]
            exact .zero _
        | true =>
            have hwide : ∀ z ∈ y :: front, p z :=
              List.forall_mem_cons.mpr ⟨hp y hy, fun z hz => hp z (hfront z hz)⟩
            rw [run_append_of_forall hwide, hlength, if_pos rfl]
            exact ih.cons x
      · rw [octets_cons hx, run_cons, run_cons]
        split
        · exact ih.cons_narrow hx
        · exact .zero _

/-- A run of a narrow class is told by the bytes. -/
theorem run_octets (hp : ∀ x, p x → isNarrow x) (chars : List Char) :
    run p (octets chars) = run p chars :=
  ((taken_run p chars).narrow hp).eq_of_aligned
    (aligned_run false (fun _ => eq_false_of_wide hp) chars)

/-- So is a run that must not be empty. -/
theorem run?_octets (hp : ∀ x, p x → isNarrow x) (chars : List Char) :
    run? p (octets chars) = run? p chars := by
  rw [run?, run_octets hp, run?]

/-- A step that takes wide characters one by one takes a row of them. -/
theorem repeated_append_wide {step : List Char → Nat} {front : List Char}
    (hone : ∀ x tail, isNarrow x = false → step (x :: tail) = 1)
    (hfront : ∀ x ∈ front, isNarrow x = false) :
    repeated step 0 (front ++ tail) = front.length + repeated step 0 tail := by
  induction front with
  | nil => rw [List.nil_append, List.length_nil, Nat.zero_add]
  | cons x front ih =>
      obtain ⟨hx, hfront⟩ := List.forall_mem_cons.mp hfront
      rw [List.cons_append, repeated, hone x _ hx, List.length_cons, Nat.add_right_comm,
        ← ih hfront]

/-- A step that takes the same text from bytes where a narrow character stands, and each wide
character or none, is repeated to take the same text. -/
theorem aligned_repeated {step : List Char → Nat} (wide : Nat)
    (hle : ∀ chars, step chars ≤ chars.length)
    (hwide : ∀ x tail, isNarrow x = false → step (x :: tail) = wide) (hone : wide ≤ 1)
    (hstep : ∀ x tail, isNarrow x →
      Aligned (x :: tail) (step (x :: octets tail)) (step (x :: tail))) (chars : List Char) :
    Aligned chars (repeated step 0 (octets chars)) (repeated step 0 chars) := by
  refine repeated_induction
    (motive := fun chars n => Aligned chars (repeated step 0 (octets chars)) n)
    hle ?stop ?more chars
  case stop =>
    intro chars hzero
    suffices h : step (octets chars) = 0 by
      rw [repeated_of_step_zero h]
      exact .zero _
    rcases chars with _ | ⟨x, tail⟩
    · exact hzero
    · rcases hx : isNarrow x with _ | _
      · obtain ⟨y, front, hy, -, -, hoctets⟩ := octets_cons_wide hx tail
        rw [hoctets, List.cons_append, hwide y _ hy, ← hwide x tail hx, hzero]
      · have h := hstep x tail hx
        rw [hzero] at h
        rw [octets_cons hx]
        exact h.byteWidth_take.symm
  case more =>
    intro chars n hpos ih
    rcases chars with _ | ⟨x, tail⟩
    · exact absurd (hpos.trans_le (hle [])) (Nat.lt_irrefl 0)
    · rcases hx : isNarrow x with _ | _
      · obtain rfl : wide = 1 := by
          have h := hwide x tail hx
          omega
        obtain ⟨y, front, hy, hfront, hlength, hoctets⟩ := octets_cons_wide hx tail
        rw [hwide x tail hx] at ih ⊢
        rw [hoctets, repeated_append_wide hwide (List.forall_mem_cons.mpr ⟨hy, hfront⟩), hlength,
          Nat.add_comm 1]
        exact ih.cons x
      · have h := hstep x tail hx
        rw [← octets_cons hx] at h
        rw [repeated_of_step_pos (hpos.trans_le h.count_le) (hle _), h.drop_octets]
        exact h.add ih

/-- A step over narrow characters is repeated as often. -/
theorem repeated_octets {step : List Char → Nat} (htaken : ∀ chars, Narrow chars (step chars))
    (hstep : ∀ chars, step (octets chars) = step chars) (chars : List Char) :
    repeated step 0 (octets chars) = repeated step 0 chars := by
  have hwide : ∀ x tail, isNarrow x = false → step (x :: tail) = 0 := by
    intro x tail hx
    by_contra hpos
    obtain ⟨k, hk⟩ := Nat.exists_eq_succ_of_ne_zero hpos
    have hmem := htaken (x :: tail)
    rw [hk] at hmem
    exact Bool.false_ne_true (hx.symm.trans hmem.of_cons.1)
  refine Narrow.eq_of_aligned (taken_repeated htaken chars)
    (aligned_repeated 0 (fun chars => (htaken chars).le_length) hwide (Nat.zero_le 1) ?_ chars)
  intro x tail hx
  rw [← octets_cons hx, hstep]
  exact (htaken _).aligned

end Scan

end Mcfunction
