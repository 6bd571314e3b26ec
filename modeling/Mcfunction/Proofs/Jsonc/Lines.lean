import Mathlib.Data.List.Forall2
import Mcfunction.Jsonc
import Mcfunction.Proofs.Split

/-!
# Stripping Keeps the Lines

`strip` only ever leaves characters out, and never a line break. This is a relation between the
text before and the text after (`Thinned`) that both passes satisfy, from whichever region and on
whatever text they start: a comment or a string that the end of the text cuts off is no
exception.

Main results:

* `stripComments_thinned`, `stripTrailingCommas_thinned`: each pass leaves out characters other
  than line breaks, and nothing else happens;
* `Thinned.lines`: line by line, what such a step leaves is a part of the line as it was;
* `strip_keeps_lines`: so every text has as many lines as what `strip` makes of it, and what
  stands on a line afterwards stood on the same line before.
-/

namespace Mcfunction.Jsonc

variable {left middle chars : List Char}

/-! ### Leaving characters out -/

/-- The first text is the second without some characters that are no line breaks. -/
inductive Thinned : List Char → List Char → Prop where
  /-- Nothing is left of nothing. -/
  | nil : Thinned [] []
  /-- A character stays. -/
  | keep {left chars : List Char} (c : Char) :
    Thinned left chars → Thinned (c :: left) (c :: chars)
  /-- A character is left out. -/
  | leaveOut {left chars : List Char} {c : Char} (inLine : c ≠ '\n') :
    Thinned left chars → Thinned left (c :: chars)

namespace Thinned

/-- Leaving out twice is leaving out. -/
theorem trans (hleft : Thinned left middle) (hmiddle : Thinned middle chars) :
    Thinned left chars := by
  induction hmiddle generalizing left with
  | nil => exact hleft
  | keep c _ ih =>
    cases hleft with
    | keep _ hleft => exact .keep c (ih hleft)
    | leaveOut hc hleft => exact .leaveOut hc (ih hleft)
  | leaveOut hc _ ih => exact .leaveOut hc (ih hleft)

/-- The line breaks are all there. -/
theorem count_newline (h : Thinned left chars) : left.count '\n' = chars.count '\n' := by
  induction h with
  | nil => rfl
  | keep c _ ih => rw [List.count_cons, List.count_cons, ih]
  | leaveOut hc _ ih => rw [List.count_cons_of_ne hc, ih]

/-- Line by line, what is left is a part of the line as it was. -/
theorem lines (h : Thinned left chars) :
    List.Forall₂ List.Sublist (splitChars '\n' left) (splitChars '\n' chars) := by
  induction h with
  | nil => exact .cons (List.Sublist.refl []) .nil
  | @keep left chars c _ ih =>
    by_cases hc : c = '\n'
    · rw [splitChars, if_pos hc, splitChars, if_pos hc]
      exact .cons (List.Sublist.refl []) ih
    · obtain ⟨line, rest, hleft, hcons⟩ := splitChars_cons hc left
      obtain ⟨line', rest', hchars, hcons'⟩ := splitChars_cons hc chars
      rw [hleft, hchars, List.forall₂_cons] at ih
      rw [hcons, hcons']
      exact .cons (ih.1.cons_cons c) ih.2
  | @leaveOut left chars c hc _ ih =>
    obtain ⟨line, rest, hchars, hcons⟩ := splitChars_cons hc chars
    rw [hchars, List.forall₂_cons_right_iff] at ih
    obtain ⟨part, parts, hpart, hparts, hleft⟩ := ih
    rw [hleft, hcons]
    exact .cons (hpart.cons c) hparts

/-- A character that is left stood there before, behind as many line breaks. -/
theorem exists_before (h : Thinned left chars) {front back : List Char} {c : Char}
    (hleft : left = front ++ c :: back) :
    ∃ before behind, chars = before ++ c :: behind ∧
      front.count '\n' = before.count '\n' := by
  induction h generalizing front with
  | nil => simp at hleft
  | @keep left chars d _ ih =>
    cases front with
    | nil =>
      obtain ⟨rfl, -⟩ := List.cons.inj hleft
      exact ⟨[], chars, rfl, rfl⟩
    | cons e front =>
      rw [List.cons_append, List.cons.injEq] at hleft
      obtain ⟨rfl, hleft⟩ := hleft
      obtain ⟨before, behind, rfl, hcount⟩ := ih hleft
      exact ⟨d :: before, behind, rfl, by rw [List.count_cons, List.count_cons, hcount]⟩
  | @leaveOut left chars d hd _ ih =>
    obtain ⟨before, behind, rfl, hcount⟩ := ih hleft
    exact ⟨d :: before, behind, rfl, by rw [List.count_cons_of_ne hd, hcount]⟩

end Thinned

/-! ### The two passes -/

/-- The first pass leaves out comments up to their line breaks. -/
theorem stripComments_thinned (region : Region) (chars : List Char) :
    Thinned (stripComments region chars) chars := by
  fun_induction stripComments region chars with
  | case1 region => exact .nil
  | case2 chars ih => exact .leaveOut (by decide) (.leaveOut (by decide) ih)
  | case3 chars ih => exact .leaveOut (by decide) (.leaveOut (by decide) ih)
  | case4 c chars _ _ ih => exact .keep c ih
  | case5 c chars ih => exact .keep '\\' (.keep c ih)
  | case6 c chars _ ih => exact .keep c ih
  | case7 chars ih => exact .keep _ ih
  | case8 c chars hc ih => exact .leaveOut hc ih
  | case9 chars ih => exact .leaveOut (by decide) (.leaveOut (by decide) ih)
  | case10 chars _ ih => exact .keep _ ih
  | case11 c chars _ hc ih => exact .leaveOut hc ih

/-- The second pass leaves out commas. -/
theorem stripTrailingCommas_thinned (inString : Bool) (chars : List Char) :
    Thinned (stripTrailingCommas inString chars) chars := by
  fun_induction stripTrailingCommas inString chars with
  | case1 inString => exact .nil
  | case2 c chars ih => exact .keep '\\' (.keep c ih)
  | case3 c chars _ ih => exact .keep c ih
  | case4 c chars hc ih =>
    rw [Bool.and_eq_true, decide_eq_true_eq] at hc
    exact .leaveOut (by rw [hc.1]; decide) ih
  | case5 c chars _ ih => exact .keep c ih

theorem strip_thinned (text : String) : Thinned (strip text).toList text.toList := by
  rw [strip, String.toList_ofList]
  exact (stripTrailingCommas_thinned _ _).trans (stripComments_thinned _ _)

/-! ### The lines -/

/-- What is left of a text has as many line breaks as the text. Line by line it is a part of the
text, and each of its characters stood on the same line before. -/
theorem strip_keeps_lines (text : String) :
    (strip text).toList.count '\n' = text.toList.count '\n' ∧
      List.Forall₂ List.Sublist (splitChars '\n' (strip text).toList)
        (splitChars '\n' text.toList) ∧
      ∀ front c back, (strip text).toList = front ++ c :: back →
        ∃ before behind, text.toList = before ++ c :: behind ∧
          front.count '\n' = before.count '\n' :=
  ⟨(strip_thinned text).count_newline, (strip_thinned text).lines,
    fun _ _ _ hleft => (strip_thinned text).exists_before hleft⟩

/-- The lines of `[1,/*`, `//"*/` and `]/*"`, whose last comment is open at the end: the bracket
that closes the array is still on the third line. -/
theorem strip_keeps_lines_cut :
    (strip "[1,/*\n//\"*/\n]/*\"").toList = ['[', '1', '\n', '\n'] ++ ']' :: [] ∧
      ∃ before behind, "[1,/*\n//\"*/\n]/*\"".toList = before ++ ']' :: behind ∧
        2 = before.count '\n' := by
  have hstrip : (strip "[1,/*\n//\"*/\n]/*\"").toList = ['[', '1', '\n', '\n'] ++ ']' :: [] := by
    decide
  exact ⟨hstrip, (strip_keeps_lines "[1,/*\n//\"*/\n]/*\"").2.2 _ ']' [] hstrip⟩

end Mcfunction.Jsonc
