import Mcfunction.Proofs.Faithful
import Mcfunction.Proofs.Shape.Fragments
import Mcfunction.Proofs.Token.Reading
import Mcfunction.Tree.Interpolation

/-!
# Where a Text Holds an Interpolation

The parser looks for `$(` in the bare text of a macro command. What it finds there is one of two
things: an interpolation of the tree, or two characters in a quoted string, of which the string
has escaped the first. A walk along the command shows this. Its steps over characters and
continuations never pass a whole `$(`, so that one stands in the text of the command just if it
stands in the text of one of the marks on the way.

## Main results

* `Walk.exists_spells`: the text along a walk holds `$(` if the text of one of its marks does.
* `MacroCommandAt.holdsInterpolation_eq`: the text of a macro command holds `$(` if a node of it
  shows it.
-/

namespace Mcfunction

/-! ### The text of spans and marks -/

/-- Whether `$(` stands in the text of the span. -/
def Span.holdsInterpolation (text : String) (span : Span) : Bool :=
  (span.slice? text).any fun piece => Parser.holdsInterpolation piece.toList

/-- Whether the mark is none of a comment and `$(` stands in its text. -/
def Mark.holdsInterpolation (text : String) (mark : Mark) : Bool :=
  mark.kind != .comment && mark.span.holdsInterpolation text

variable {text : String} {c d : Cursor} {n : Nat}

theorem Span.Holds.holdsInterpolation {span : Span} {chars : List Char}
    (h : span.Holds text chars) :
    span.holdsInterpolation text = Parser.holdsInterpolation chars := by
  rw [Span.holdsInterpolation, h, Option.any_some, String.toList_ofList]

/-! ### Pieces of a text -/

theorem Scan.startsInterpolation_of_ne {x : Char} (hx : x ≠ '$') (chars : List Char) :
    startsInterpolation (x :: chars) = false := by
  rw [Bool.eq_false_iff, ne_eq, startsInterpolation_iff]
  rintro ⟨body, heq⟩
  exact hx (List.cons.inj heq).1

namespace Parser

variable {front back chars : List Char} {x : Char}

theorem holdsInterpolation_cons (x : Char) (chars : List Char) :
    holdsInterpolation (x :: chars) =
      (Scan.startsInterpolation (x :: chars) || holdsInterpolation chars) :=
  rfl

/-- A `$(` that reaches over a seam has its `$` before and its parenthesis behind it. -/
theorem holdsInterpolation_append (h : front.getLast? = some '$' → back.head? ≠ some '(') :
    holdsInterpolation (front ++ back) = (holdsInterpolation front || holdsInterpolation back) := by
  induction front with
  | nil => rfl
  | cons x front ih =>
      have hstart : Scan.startsInterpolation (x :: (front ++ back)) =
          Scan.startsInterpolation (x :: front) := by
        rw [Bool.eq_iff_iff, Scan.startsInterpolation_iff, Scan.startsInterpolation_iff]
        cases front with
        | nil =>
            simp only [List.nil_append, List.cons.injEq, exists_and_left, reduceCtorEq, and_false,
              exists_false, iff_false, not_and, not_exists]
            rintro rfl body rfl
            exact h rfl rfl
        | cons y front => simp
      have htail : front.getLast? = some '$' → back.head? ≠ some '(' := by
        intro hlast
        refine h ?_
        rw [List.getLast?_cons, hlast]
        rfl
      rw [List.cons_append, holdsInterpolation_cons, holdsInterpolation_cons, ih htail, hstart,
        Bool.or_assoc]

theorem holdsInterpolation_of_forall_ne (h : ∀ x ∈ chars, x ≠ '$') :
    holdsInterpolation chars = false := by
  induction chars with
  | nil => rfl
  | cons x chars ih =>
      rw [List.forall_mem_cons] at h
      rw [holdsInterpolation_cons, Scan.startsInterpolation_of_ne h.1, ih h.2]
      rfl

/-- Text without a `$` before others changes nothing. -/
theorem holdsInterpolation_append_of_forall_ne (h : ∀ x ∈ front, x ≠ '$') :
    holdsInterpolation (front ++ back) = holdsInterpolation back := by
  rw [holdsInterpolation_append fun hlast => absurd rfl (h _ (List.mem_of_getLast? hlast)),
    holdsInterpolation_of_forall_ne h, Bool.false_or]

theorem holdsInterpolation_append_of_right (front : List Char) (h : holdsInterpolation back) :
    holdsInterpolation (front ++ back) := by
  induction front with
  | nil => exact h
  | cons x front ih => rw [List.cons_append, holdsInterpolation_cons, ih, Bool.or_true]

/-- Quotes around a text change nothing. -/
theorem holdsInterpolation_quoted (hx : x = '"' ∨ x = '\'') :
    holdsInterpolation (x :: (chars ++ [x])) = holdsInterpolation chars := by
  have hne : x ≠ '$' ∧ [x].head? ≠ some '(' := by
    rcases hx with rfl | rfl <;> decide
  have hquote : ∀ y ∈ [x], y ≠ '$' := List.forall_mem_singleton.mpr hne.1
  rw [← List.singleton_append, holdsInterpolation_append_of_forall_ne hquote,
    holdsInterpolation_append fun _ => hne.2, holdsInterpolation_of_forall_ne hquote,
    Bool.or_false]

end Parser

/-! ### Walks -/

theorem Mark.holdsInterpolation_of_holds {kind : TokenKind} {span : Span} {chars : List Char}
    (hkind : kind ≠ .comment) (h : span.Holds text chars) :
    (Mark.mk kind span).holdsInterpolation text = Parser.holdsInterpolation chars := by
  rw [Mark.holdsInterpolation, h.holdsInterpolation, bne_iff_ne.mpr hkind, Bool.true_and]

/-- The text along a walk holds `$(` just if the text of one of its marks does. -/
theorem Walk.exists_spells {marks : List Mark} (htext : Cursor.start text ≤ c)
    (h : Walk false c marks d) :
    ∃ chars, c.Spells chars d ∧
      Parser.holdsInterpolation chars = marks.any (Mark.holdsInterpolation text) := by
  induction h with
  | refl c => exact ⟨[], .refl c, rfl⟩
  | @char c d _ hord _ _ ih =>
      rcases hrest : c.rest with _ | ⟨x, tail⟩
      · rw [hrest] at hord
        cases hord
      have hfirst : c.Spells [x] (c.advance 1) := .first hrest
      obtain ⟨chars, hspells, hholds⟩ := ih (htext.trans ⟨_, hfirst⟩)
      have hwhole := (hfirst.trans hspells).1
      refine ⟨x :: chars, hfirst.trans hspells, ?_⟩
      have hstart : Scan.startsInterpolation (x :: chars) = false := by
        rw [hrest] at hord hwhole
        rw [Bool.eq_false_iff, ne_eq, Scan.startsInterpolation_iff]
        rintro ⟨body, hbody⟩
        rw [hwhole, List.singleton_append, hbody] at hord
        cases (Scan.startsOrdinary_cons.mp hord).2.2.1
      rw [Parser.holdsInterpolation_cons, hstart, hholds, Bool.false_or]
  | @continuation c _ n _ hcontinuation _ ih =>
      have hfirst : c.Spells (c.rest.take n) (c.advance n) :=
        .advance (Scan.continuation_le_length hcontinuation)
      obtain ⟨chars, hspells, hholds⟩ := ih (htext.trans ⟨_, hfirst⟩)
      have hne : ∀ x ∈ c.rest.take n, x ≠ '$' := by
        obtain ⟨gap, tail, hrest, hgap, rfl⟩ := Scan.continuation_eq_some hcontinuation
        have htake : c.rest.take (gap.length + 2) = '\\' :: (gap ++ ['\n']) := by
          rw [hrest]
          simp [List.take_append, List.take_of_length_le]
        rw [htake, List.forall_mem_cons, List.forall_mem_append, List.forall_mem_singleton]
        refine ⟨by decide, fun x hx => ?_, by decide⟩
        rintro rfl
        cases hgap _ hx
      refine ⟨_, hfirst.trans hspells, ?_⟩
      rw [Parser.holdsInterpolation_append_of_forall_ne hne, hholds]
  | @string c _ q _ _ hstart hok _ ih =>
      obtain ⟨x, hchar, -, -, hclose⟩ := quoted_spells hstart hok
      have hlen : q.before ≤ c.rest.length :=
        (Nat.le_succ _).trans (Scan.inline_quoted hstart hok).le_length
      have hfirst := (Cursor.Spells.advance hlen).trans hclose
      obtain ⟨chars, hspells, hholds⟩ := ih (htext.trans ⟨_, hfirst⟩)
      have hlast : (c.rest.take q.before ++ [x]).getLast? ≠ some '$' := by
        rw [List.getLast?_concat]
        rcases Quote.mark_cases hchar with rfl | rfl <;> decide
      refine ⟨_, hfirst.trans hspells, ?_⟩
      rw [Parser.holdsInterpolation_append fun h => absurd h hlast, List.any_cons, hholds,
        Mark.holdsInterpolation_of_holds (by decide) (hfirst.holds htext)]
  | @interpolation c _ n _ _ hstart hok _ ih =>
      have hfirst := interpolation_spells hstart hok
      obtain ⟨chars, hspells, hholds⟩ := ih (htext.trans ⟨_, hfirst⟩)
      refine ⟨_, hfirst.trans hspells, ?_⟩
      rw [List.any_cons, Mark.holdsInterpolation_of_holds (by decide) (hfirst.holds htext)]
      rfl

/-! ### Nodes -/

/-- Text with an interpolation among its pieces holds the `$(` of that one. -/
theorem Interpolated.holdsInterpolation_source {argument : Interpolated} {piece : Interpolation}
    (h : .interpolation piece ∈ argument.fragments) :
    Parser.holdsInterpolation argument.source.toList := by
  obtain ⟨front, back, hsplit⟩ := List.append_of_mem h
  obtain ⟨before, behind, hsource⟩ : ∃ before behind,
      argument.source.toList = before ++ '$' :: '(' :: behind := by
    simp only [Interpolated.source, hsplit, List.map_append, List.map_cons, String.join_append,
      String.join_cons, String.toList_append, Fragment.source_interpolation, List.cons_append,
      List.append_assoc]
    exact ⟨_, _, (List.append_assoc _ _ _).symm⟩
  rw [hsource]
  exact Parser.holdsInterpolation_append_of_right before rfl

/-- The text of a node's marks holds `$(` just if the node shows it. -/
theorem Node.ReadFrom.any_holdsInterpolation {node : Node} (h : node.ReadFrom (.start text)) :
    node.marks.any (Mark.holdsInterpolation text) = node.showsInterpolation := by
  have hfaithful := h.faithful
  cases node with
  | comment => rfl
  | string literal =>
      rcases hquote : literal.quote.char? with _ | x
      · have hbare : literal.quote = .bare := by
          cases hcases : literal.quote <;> rw [hcases] at hquote <;> first | rfl | cases hquote
        simp [Node.marks, StringLiteral.marks, Node.showsInterpolation,
          StringLiteral.quotesInterpolation, hbare]
      · have hquoted : literal.quote ≠ .bare := by
          intro hbare
          rw [hbare] at hquote
          cases hquote
        have hmarks : (Node.string literal).marks = [⟨.string, literal.span⟩] := if_neg hquoted
        have hwritten : literal.written = x :: (literal.value.toList ++ [x]) := by
          rw [StringLiteral.written, hquote]
        rw [hmarks, List.any_cons, List.any_nil, Bool.or_false,
          Mark.holdsInterpolation_of_holds (by decide) hfaithful, hwritten,
          Parser.holdsInterpolation_quoted (Quote.mark_cases hquote), Node.showsInterpolation,
          StringLiteral.quotesInterpolation, bne_iff_ne.mpr hquoted, Bool.true_and]
  | interpolated argument =>
      obtain ⟨_, c, d, -, hstart, h⟩ := h
      have hne := h.interpolations_ne_nil hstart
      obtain ⟨piece, hpiece⟩ := List.exists_mem_of_ne_nil _ hne
      have hfragment : .interpolation piece ∈ argument.fragments := by
        obtain ⟨fragment, hmem, hfragment⟩ := List.mem_filterMap.mp hpiece
        cases fragment <;> cases hfragment
        exact hmem
      have hshows : (Node.interpolated argument).showsInterpolation = true := by
        simpa [Node.showsInterpolation, Node.interpolations] using hne
      rw [hshows, List.any_eq_true, Node.marks, Interpolated.marks]
      by_cases hbare : argument.quote = .bare
      · have hholds : piece.span.Holds text ('$' :: '(' :: piece.expression.toList ++ [')']) := by
          rw [← Fragment.source_interpolation]
          exact hfaithful.fragments _ hfragment
        rw [if_pos hbare]
        refine ⟨_, List.mem_map_of_mem hpiece, ?_⟩
        rw [Mark.holdsInterpolation_of_holds (by decide) hholds]
        rfl
      · rw [if_neg hbare]
        refine ⟨_, List.mem_singleton_self _, ?_⟩
        rw [Mark.holdsInterpolation_of_holds (by decide) hfaithful.source]
        exact Interpolated.holdsInterpolation_source hfragment
  | macroCommand command =>
      obtain ⟨name, arguments, span⟩ := command
      cases name with
      | literal => rfl
      | interpolation piece =>
          have hpiece : piece.Faithful text := hfaithful
          show [Mark.mk .interpolation piece.span].any _ = true
          rw [List.any_cons, Mark.holdsInterpolation_of_holds (by decide) hpiece]
          rfl
  | _ => rfl

theorem MacroCommandAt.holdsInterpolation_eq {room : Nat} {command : MacroCommand}
    (htext : Cursor.start text ≤ c) (h : MacroCommandAt (ArgumentsAt room true) c command d)
    (hnone : placeholders command.nodes = []) :
    command.span.holdsInterpolation text = command.nodes.any Node.showsInterpolation := by
  have hwalk : Walk false c (command.nodes.flatMap Node.marks) d :=
    (Walk.one h.startsOrdinary).trans (h.marked (ArgumentsAt.marked room true) hnone)
  obtain ⟨chars, hspells, hholds⟩ := hwalk.exists_spells htext
  have hread := h.nodes_readFrom (ArgumentsAt.nodes_readFrom room true) htext
  have hplaced := h.placed (ArgumentsAt.argumentsPlaced room true)
  rw [hplaced.span_eq, (hspells.holds htext).holdsInterpolation, hholds, List.any_flatMap]
  rw [Bool.eq_iff_iff, List.any_eq_true, List.any_eq_true]
  refine exists_congr fun node => and_congr_right fun hnode => ?_
  rw [(hread node hnode).any_holdsInterpolation]

end Mcfunction
