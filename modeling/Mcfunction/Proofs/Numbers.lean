import Mcfunction.Proofs.Numbers.Lookup
import Mcfunction.Proofs.Modes
import Mcfunction.Proofs.Reading.Nodes
import Mcfunction.Proofs.Written.Leaf

/-!
# The Numbers of a Document

The parsers cut the type letter or the mark off what a recognizer found and read the rest as a
number. If that could not be read, a number would be no number and an offset would be lost. It
can always be read: what a recognizer finds is a numeral with its type letter, or a mark with a
mantissa.

## Main results

* `Node.ReadFrom.measured`: the numbers of every node are those that its text writes.
* `numbers_maximal_and_measured`: the recognizers take as much as they can at every offset, and
  no number of a document is lost.
-/

namespace Mcfunction

/-! ### The values of numerals -/

namespace Binary64

/-- Whether this is the result of an operation that has none: its magnitude is beyond that of
infinity. -/
def isNaN (x : Binary64) : Bool :=
  infiniteMagnitude < x.magnitude

/-- The sign does not count to the magnitude. -/
theorem magnitude_ofMagnitude (negative : Bool) {magnitude : Nat}
    (h : magnitude ≤ infiniteMagnitude) :
    (ofMagnitude negative magnitude).magnitude = magnitude := by
  have hlimit : infiniteMagnitude < Nat.pow 2 63 := by decide
  have htotal : Nat.pow 2 63 + Nat.pow 2 63 = 2 ^ 64 := by decide
  have hword : (if negative then Nat.pow 2 63 + magnitude else magnitude) < 2 ^ 64 := by
    split_ifs <;> omega
  rw [ofMagnitude, Binary64.magnitude, UInt64.toNat_ofNat', Nat.mod_eq_of_lt hword]
  cases negative with
  | true => exact (Nat.add_mod_left _ _).trans (Nat.mod_eq_of_lt (h.trans_lt hlimit))
  | false => exact Nat.mod_eq_of_lt (h.trans_lt hlimit)

theorem isNaN_ofMagnitude (negative : Bool) {magnitude : Nat} (h : magnitude ≤ infiniteMagnitude) :
    (ofMagnitude negative magnitude).isNaN = false := by
  rw [isNaN, magnitude_ofMagnitude negative h]
  exact decide_eq_false (Nat.not_lt_of_le h)

theorem isNaN_ofRatio (negative : Bool) (num den : Nat) :
    (ofRatio negative num den).isNaN = false :=
  isNaN_ofMagnitude negative (Nat.min_le_right _ _)

example : nan.isNaN = true := by decide

end Binary64

/-- A decimal is rounded to a number or to infinity. -/
theorem Decimal.isNaN_toBinary64 (decimal : Decimal) : decimal.toBinary64.isNaN = false := by
  unfold Decimal.toBinary64
  split_ifs
  · exact Binary64.isNaN_ofMagnitude _ (Nat.zero_le _)
  · exact Binary64.isNaN_ofMagnitude _ le_rfl
  · exact Binary64.isNaN_ofMagnitude _ (Nat.zero_le _)
  · exact Binary64.isNaN_ofRatio _ _ _
  · exact Binary64.isNaN_ofRatio _ _ _

/-- A numeral is read as a number. -/
theorem Numeral.isNaN_getD {digits : List Char} (h : Numeral digits) :
    ((Binary64.ofChars? digits).getD .nan).isNaN = false := by
  obtain ⟨decimal, hdecimal⟩ := Option.isSome_iff_exists.mp h.ofChars?_isSome
  rw [Binary64.ofChars?, hdecimal, Option.map_some, Option.getD_some]
  exact decimal.isNaN_toBinary64

/-- A mantissa with an optional sign is a numeral. -/
theorem SignedMantissa.numeral {mantissa : List Char} (h : SignedMantissa mantissa) :
    Numeral mantissa := by
  cases h with
  | positive h => simpa using Numeral.positive h .absent
  | negative h => simpa using Numeral.negative h .absent

/-! ### What is left of a number without its letter -/

namespace Scan

variable {Kind : List Char → Prop} {chars : List Char} {k n : Nat} {suffix : Option Char}

/-- The longest text of a kind stays the longest if the text ends behind it. -/
theorem Longest.take (h : Longest Kind chars n) (hk : n ≤ k) : Longest Kind (chars.take k) n := by
  refine ⟨?_, ?_, fun {more} hmore hkind => ?_⟩
  · rw [List.length_take]
    exact Nat.le_min.mpr ⟨hk, h.le_length⟩
  · rw [List.take_take, Nat.min_eq_left hk]
    exact h.kind
  · rw [List.length_take] at hmore
    rw [List.take_take, Nat.min_eq_left (hmore.trans (Nat.min_le_left _ _))] at hkind
    exact h.le_count (hmore.trans (Nat.min_le_right _ _)) hkind

/-- A number and its letter are found again in what was taken for them. -/
theorem suffixedNumber_take (h : suffixedNumber chars = some (n, suffix)) :
    suffixedNumber (chars.take n) = some (n, suffix) := by
  obtain ⟨m, hnumber, h⟩ := suffixedNumber_iff.mp h
  have hlongest := number_recognizes.eq_some_iff.mp hnumber
  have htake : ∀ {k}, m ≤ k → number (chars.take k) = some m := fun hk =>
    number_recognizes.eq_some_iff.mpr (hlongest.take hk)
  cases suffix with
  | none =>
      obtain ⟨rfl, -⟩ := h
      refine suffixedNumber_iff.mpr ⟨n, htake le_rfl, rfl, ?_⟩
      rw [List.drop_take_self]
      intro letter hletter
      cases hletter
  | some letter =>
      obtain ⟨hnext, hletter, rfl⟩ := h
      refine suffixedNumber_iff.mpr ⟨m, htake (Nat.le_succ m), ?_, hletter, rfl⟩
      obtain ⟨tail, htail⟩ := List.head?_eq_some_iff.mp hnext
      rw [List.drop_take, htail, Nat.add_sub_cancel_left]
      rfl

/-- Without its letter a number is a numeral. -/
theorem suffixedNumber_numeral (h : suffixedNumber chars = some (n, suffix)) :
    Numeral (chars.take (if suffix.isSome then n - 1 else n)) := by
  obtain ⟨m, hnumber, h⟩ := suffixedNumber_iff.mp h
  cases suffix with
  | none =>
      obtain ⟨rfl, -⟩ := h
      exact number_kind hnumber
  | some letter =>
      obtain ⟨-, -, rfl⟩ := h
      exact number_kind hnumber

end Scan

/-! ### Nodes -/

/-- The number of an absolute part is one, and of the other parts exactly a bare mark has no
offset. -/
def CoordinatePart.Measured (text : String) : CoordinatePart → Prop
  | .absolute value _ _ => value.isNaN = false
  | .relative offset span => offset = none ↔ span.Holds text ['~']
  | .localTo offset span => offset = none ↔ span.Holds text ['^']

/-- No number of the node itself is lost. What it holds in nodes of its own is left to those. -/
def Node.Measured (text : String) : Node → Prop
  | .argument (.number node) | .value (.number node) => node.value.isNaN = false
  | .argument (.coordinates node) => ∀ part ∈ node.parts.toList, part.Measured text
  | _ => True

variable {text : String} {c : Cursor} {k n : Nat}

theorem number_measured {suffix : Option Char}
    (h : Scan.suffixedNumber c.rest = some (n, suffix)) :
    (c.number n suffix).value.isNaN = false :=
  (Scan.suffixedNumber_numeral h).isNaN_getD

/-- The offset behind a mark is read, or there is only the mark. -/
theorem offset_eq_none_iff {x : Char} {span : Span} {tail : List Char}
    (hspan : span.Holds text (x :: tail.take ((Scan.coordinateOffset tail).getD 0))) :
    Binary64.ofChars? (tail.take ((Scan.coordinateOffset tail).getD 0)) = none ↔
      span.Holds text [x] := by
  rcases hoffset : Scan.coordinateOffset tail with _ | m
  · rw [hoffset, Option.getD_none, List.take_zero] at hspan
    rw [Option.getD_none, List.take_zero]
    exact ⟨fun _ => hspan, fun _ => rfl⟩
  · have hread := (Scan.coordinateOffset_recognizes.kind hoffset).numeral.ofChars?_isSome
    rw [hoffset, Option.getD_some] at hspan
    rw [Option.getD_some]
    constructor
    · intro hnone
      rw [Binary64.ofChars?, Option.map_eq_none_iff] at hnone
      rw [hnone] at hread
      cases hread
    · intro hbare
      rw [Span.Holds] at hspan hbare
      rw [hbare, Option.some.injEq] at hspan
      rw [(List.cons.inj (String.ofList_injective hspan)).2.symm] at hread
      cases hread

/-- A part without a mark is the number that it writes, less the type letter. -/
theorem Parser.coordinatePart_plain {chars : List Char} {suffix : Option Char}
    (hmark : ∀ x ∈ chars.head?, ¬ (x = '~' ∨ x = '^'))
    (h : Scan.suffixedNumber chars = some (chars.length, suffix)) (span : Span) :
    coordinatePart chars span = .absolute ((Binary64.ofChars? (chars.take
      (if suffix.isSome then chars.length - 1 else chars.length))).getD .nan) suffix span := by
  unfold coordinatePart
  split
  · exact absurd (.inl rfl) (hmark _ rfl)
  · exact absurd (.inr rfl) (hmark _ rfl)
  · rw [h]
    cases suffix with
    | none => rw [Option.isSome_none, if_neg Bool.false_ne_true, List.take_length]; rfl
    | some letter => rw [Option.isSome_some, if_pos rfl, ← List.dropLast_eq_take]; rfl

/-- A part of a triple. -/
theorem coordinatePart_measured (htext : Cursor.start text ≤ c) (hn : n ≤ c.rest.length)
    (h : Scan.coordinate (c.rest.drop n) = some k) :
    (c.coordinatePart (n, n + k)).Measured text := by
  obtain ⟨x, tail, hrest, -⟩ := Scan.coordinate_head h
  have hlen := (Scan.inline_coordinate h).le_length
  have hspan : Span.Holds text ⟨c.offsetAfter n, c.offsetAfter (n + k)⟩
      ((c.rest.drop n).take k) := by
    have hspells := Cursor.Spells.advance (c := c.advance n) (n := k)
      (by rwa [Cursor.advance_rest])
    rw [Cursor.advance_rest, Cursor.advance_advance] at hspells
    exact hspells.holds (htext.trans (Cursor.le_advance hn))
  rw [Cursor.coordinatePart]
  dsimp only
  rw [Nat.add_sub_cancel_left]
  rw [hrest] at h hspan ⊢
  by_cases hmark : x = '~' ∨ x = '^'
  · rw [Scan.coordinate_mark hmark, Option.some.injEq] at h
    rw [← h, Nat.add_comm 1, List.take_succ_cons] at hspan
    rw [← h, Nat.add_comm 1, List.take_succ_cons]
    rcases hmark with rfl | rfl
    · exact offset_eq_none_iff hspan
    · exact offset_eq_none_iff hspan
  · rw [Scan.coordinate_plain hmark] at h
    obtain ⟨⟨k', suffix⟩, hnumber, rfl⟩ := Option.map_eq_some_iff.mp h
    have hread : Scan.suffixedNumber ((x :: tail).take k') =
        some (((x :: tail).take k').length, suffix) := by
      rw [List.length_take_of_le (Scan.inline_suffixedNumber hnumber).le_length]
      exact Scan.suffixedNumber_take hnumber
    have hhead : ∀ y ∈ ((x :: tail).take k').head?, ¬ (y = '~' ∨ y = '^') := by
      intro y hy
      rw [List.head?_take] at hy
      split_ifs at hy
      · cases hy
      · cases hy
        exact hmark
    dsimp only
    rw [Parser.coordinatePart_plain hhead hread]
    exact (Scan.suffixedNumber_numeral hread).isNaN_getD

theorem coordinates_measured {ranges : Triple (Nat × Nat)} (htext : Cursor.start text ≤ c)
    (h : Scan.coordinates c.rest = some ranges) :
    ∀ part ∈ (c.coordinates ranges).parts.toList, part.Measured text := by
  obtain ⟨x, gap, y, gap', z, hx, hgap, hy, hgap', hz, -, rfl⟩ := Scan.coordinates_iff.mp h
  have hxLen := (Scan.inline_coordinate hx).le_length
  have hyStart := Scan.blanks_end_le hxLen hgap
  have hzStart := Scan.blanks_end_le (Scan.coordinate_end_le hyStart hy) hgap'
  have hfirst := coordinatePart_measured htext (Nat.zero_le _) hx
  rw [Nat.zero_add] at hfirst
  intro part hpart
  simp only [Cursor.coordinates, Triple.map, Triple.toList, List.mem_cons, List.not_mem_nil,
    or_false] at hpart
  rcases hpart with rfl | rfl | rfl
  · exact hfirst
  · exact coordinatePart_measured htext hyStart hy
  · exact coordinatePart_measured htext hzStart hz

/-- The numbers of a node that is read from a text are those that the text writes. -/
theorem Node.ReadFrom.measured {node : Node} (h : node.ReadFrom (.start text)) :
    node.Measured text := by
  cases node with
  | argument node =>
      rcases h with ⟨_, rfl⟩ | ⟨_, _, _, c, d, htext, h⟩
      · trivial
      · cases h with
        | number hnumber => exact number_measured (Scan.wholeNumber_eq_some hnumber)
        | coordinates hranges => exact coordinates_measured htext hranges
        | _ => trivial
  | value node =>
      obtain ⟨_, _, c, d, -, h⟩ := h
      cases h with
      | number hnumber => exact number_measured (Scan.wholeNumber_eq_some hnumber)
      | _ => trivial
  | _ => trivial

/-- At every offset of every text the numeric recognizers take as much as they can, and in every
document that is parsed from the text no number is lost: none is `NaN`, and of the relative and
local parts of coordinates exactly the bare marks have no offset. -/
theorem numbers_maximal_and_measured (text : String) :
    (∀ offset, Lookup.NumbersAt text offset) ∧
      ∀ mode options document log next,
        Document.run mode options text = .done document log next →
          ∀ node ∈ document.nodes, node.Measured text := by
  refine ⟨Lookup.numbersAt text, fun mode options document log next hrun => ?_⟩
  have hsound : (Document.run mode options text).Sound (.start text) fun document _ =>
      StatementsAt (ArgumentsAt options.maxDepth) (.start text) document.statements := by
    cases mode with
    | strict => exact (Document.run_lockstep text options).sound_strict
    | tolerant => exact (Document.run_lockstep text options).sound_tolerant
  rw [hrun] at hsound
  cases hsound with
  | done hstatements =>
      exact fun node hnode => (hstatements.nodes_readFrom le_rfl node hnode).measured

/-- The numbers of a command with a relative triple and a number. -/
theorem numbers_of_teleport :
    Lookup.NumbersAt "x ~ ~-1 1.5e3b 5" 8 ∧ ∃ document log next,
      Document.run .tolerant {} "x ~ ~-1 1.5e3b 5" = .done document log next ∧
        ∀ node ∈ document.nodes, node.Measured "x ~ ~-1 1.5e3b 5" := by
  obtain ⟨hlookup, hmeasured⟩ := numbers_maximal_and_measured "x ~ ~-1 1.5e3b 5"
  obtain ⟨document, log, next, hrun, -⟩ := Document.exists_run_tolerant "x ~ ~-1 1.5e3b 5" {}
  exact ⟨hlookup 8, document, log, next, hrun, hmeasured .tolerant {} document log next hrun⟩

end Mcfunction
