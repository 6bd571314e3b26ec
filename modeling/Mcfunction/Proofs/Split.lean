import Mathlib.Data.List.Basic
import Mcfunction.Tree.Leaf

/-!
# The Pieces of a Text

What `splitChars` cuts a text into: one piece more than there are separators
(`length_splitChars`), and every character but the separators (`count_flatten_splitChars`). Pieces
that are written one after the other, with a separator before or behind each, are found again.
-/

namespace Mcfunction

variable {lines : List (List Char)}

/-- There is a first piece, and a character that separates nothing goes to its front. -/
theorem splitChars_cons {separator c : Char} (h : c ≠ separator) (chars : List Char) :
    ∃ piece pieces, splitChars separator chars = piece :: pieces ∧
      splitChars separator (c :: chars) = (c :: piece) :: pieces := by
  cases hsplit : splitChars separator chars with
  | nil =>
      cases chars with
      | nil => simp [splitChars] at hsplit
      | cons d chars =>
          rw [splitChars] at hsplit
          split_ifs at hsplit
          split at hsplit <;> simp at hsplit
  | cons piece pieces => exact ⟨piece, pieces, rfl, by rw [splitChars, if_neg h, hsplit]⟩

/-- A split has one piece more than there are separators. -/
theorem length_splitChars (separator : Char) (chars : List Char) :
    (splitChars separator chars).length = chars.count separator + 1 := by
  induction chars with
  | nil => rfl
  | cons c chars ih =>
      by_cases hc : c = separator
      · subst hc
        rw [splitChars, if_pos rfl, List.length_cons, ih, List.count_cons_self]
      · obtain ⟨piece, pieces, hchars, hcons⟩ := splitChars_cons hc chars
        rw [hchars, List.length_cons] at ih
        rw [hcons, List.length_cons, ih, List.count_cons_of_ne hc]

/-- A line goes to the front of a text that begins with a line break. -/
theorem splitChars_append {line tail : List Char} (h : '\n' ∉ line)
    (htail : splitChars '\n' tail = [] :: lines) :
    splitChars '\n' (line ++ tail) = line :: lines := by
  induction line with
  | nil => exact htail
  | cons c line ih =>
      obtain ⟨hc, hline⟩ := not_or.mp (mt List.mem_cons.mpr h)
      rw [List.cons_append, splitChars, if_neg (Ne.symm hc), ih hline]

/-- A line with its line break. -/
theorem splitChars_line {line : List Char} (h : '\n' ∉ line) (tail : List Char) :
    splitChars '\n' (line ++ '\n' :: tail) = line :: splitChars '\n' tail :=
  splitChars_append h (by rw [splitChars, if_pos rfl])

/-- Lines with a line break before each of them. -/
theorem splitChars_flatMap (h : ∀ line ∈ lines, '\n' ∉ line) :
    splitChars '\n' (lines.flatMap ('\n' :: ·)) = [] :: lines := by
  induction lines with
  | nil => rfl
  | cons line lines ih =>
      obtain ⟨hline, hlines⟩ := List.forall_mem_cons.mp h
      rw [List.flatMap_cons, List.cons_append, splitChars, if_pos rfl,
        splitChars_append hline (ih hlines)]

/-- Lines with a line break behind each of them, before a text. -/
theorem splitChars_flatMap_line (h : ∀ line ∈ lines, '\n' ∉ line) (tail : List Char) :
    splitChars '\n' (lines.flatMap (· ++ ['\n']) ++ tail) = lines ++ splitChars '\n' tail := by
  induction lines with
  | nil => rfl
  | cons line lines ih =>
      obtain ⟨hline, hlines⟩ := List.forall_mem_cons.mp h
      rw [List.flatMap_cons, List.append_assoc, List.append_assoc, List.singleton_append,
        splitChars_line hline, ih hlines, List.cons_append]

/-- Splitting into lines loses line feeds only. -/
theorem count_flatten_splitChars {x : Char} (hx : x ≠ '\n') (text : List Char) :
    (splitChars '\n' text).flatten.count x = text.count x := by
  induction text with
  | nil => rfl
  | cons c text ih =>
      by_cases hc : c = '\n'
      · rw [splitChars, if_pos hc, List.flatten_cons, List.nil_append, ih, hc,
          List.count_cons_of_ne hx.symm]
      · obtain ⟨piece, pieces, htext, hcons⟩ := splitChars_cons hc text
        rw [htext, List.flatten_cons] at ih
        rw [hcons, List.flatten_cons, List.cons_append, List.count_cons, ih, List.count_cons]

end Mcfunction
