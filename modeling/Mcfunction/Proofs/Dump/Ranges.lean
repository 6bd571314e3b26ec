import Mcfunction.Proofs.Dump.Text

/-!
# Places in the Text of a View

A place is written behind the kind of its node. It starts with a space and a bracket, and neither
names nor indentation hold a bracket, so the places can be found in the text and taken out. What
is left depends on the nodes and fields of the view alone.

## Main results

* `Sexp.stripRanges_render`: the text of a view without its places.
* `Sexp.render_congr`: views of the same nodes and fields have the same text without places.
-/

namespace Mcfunction

namespace Sexp

/-- The text without its places. A place goes from a space in front of a bracket to the second
closing bracket after it; `left` of the closing brackets of a place are still to come. -/
def stripRanges : Nat → List Char → List Char
  | _, [] => []
  | 0, c :: chars =>
    if c = ' ' ∧ chars.head? = some '[' then stripRanges 2 chars else c :: stripRanges 0 chars
  | left + 1, c :: chars => stripRanges (if c = ']' then left else left + 1) chars

/-! ### Taking places out -/

section

variable {chars front rest : List Char} {left : Nat}

theorem stripRanges_append (h : '[' ∉ chars) (hrest : rest.head? ≠ some '[') :
    stripRanges 0 (chars ++ rest) = chars ++ stripRanges 0 rest := by
  induction chars with
  | nil => rfl
  | cons c chars ih =>
      obtain ⟨-, hchars⟩ := not_or.mp (mt List.mem_cons.mpr h)
      have hnext : (chars ++ rest).head? ≠ some '[' := by
        rcases chars with _ | ⟨x, chars⟩
        · exact hrest
        · rintro heq
          exact hchars (Option.some.inj heq ▸ List.mem_cons_self)
      rw [List.cons_append, stripRanges, if_neg (fun h => hnext h.2), ih hchars]
      rfl

/-- Inside a place everything is left out up to the next closing bracket. -/
theorem stripRanges_inside (h : ']' ∉ chars) (left : Nat) (rest : List Char) :
    stripRanges (left + 1) (chars ++ ']' :: rest) = stripRanges left rest := by
  induction chars with
  | nil => rw [List.nil_append, stripRanges, if_pos rfl]
  | cons c chars ih =>
      obtain ⟨hc, hchars⟩ := not_or.mp (mt List.mem_cons.mpr h)
      rw [List.cons_append, stripRanges, if_neg (Ne.symm hc), ih hchars]

theorem stripRanges_rangeText (index : LineIndex) (span : Span) (rest : List Char) :
    stripRanges 0 ((rangeText index span).toList ++ rest) = stripRanges 0 rest := by
  have hplace : ∀ place, ']' ∉ placeText place := fun place => placeText_ne rfl (by decide)
    (by decide)
  have hfirst : ']' ∉ '[' :: placeText (index.lineColumn span.start) :=
    not_or.mpr ⟨by decide, hplace _⟩ ∘ List.mem_cons.mp
  have hsecond : ']' ∉ ' ' :: '-' :: ' ' :: '[' :: placeText (index.lineColumn span.stop) := by
    simp [hplace]
  rw [rangeText_toList, List.cons_append, stripRanges, if_pos ⟨rfl, rfl⟩]
  have hinner := stripRanges_inside hfirst 1
    (' ' :: '-' :: ' ' :: '[' :: (placeText (index.lineColumn span.stop) ++ ']' :: rest))
  have houter := stripRanges_inside hsecond 0 rest
  simpa using hinner.trans houter

/-- What follows a node in its text starts with no bracket. -/
theorem head?_renderAll (index : Option LineIndex) (level : Nat) (children : List Sexp)
    (hrest : rest.head? ≠ some '[') :
    ((renderAll index level children).toList ++ rest).head? ≠ some '[' := by
  rcases children with _ | ⟨child, children⟩
  · rw [renderAll]
    exact hrest
  · rw [renderAll, String.toList_append, String.toList_append, newline_toList]
    exact fun h => absurd (Option.some.inj h) (by decide)

end

variable (index : LineIndex)

/-- The text of a node up to the nodes in it, without its place. -/
theorem stripRanges_head {entry : Entry} {front : List Char} (hentry : entry.Named)
    (hfront : '[' ∉ front) (rest : List Char) :
    stripRanges 0 (front ++ entry.head (some index) ++ rest) =
      front ++ entry.head none ++ stripRanges 0 rest := by
  have hlabel : '[' ∉ label entry.field := label_ne hentry.1 rfl (by decide) (by decide)
  have hkind : '[' ∉ entry.kind.toList := hentry.2.ne rfl
  have hchars : '[' ∉ front ++ (label entry.field ++ '(' :: entry.kind.toList) := by
    simp [hfront, hlabel, hkind]
  have hstart : ((rangeText index entry.span).toList ++ rest).head? ≠ some '[' := by
    rw [rangeText_toList]
    exact fun h => absurd (Option.some.inj h) (by decide)
  have hstrip := stripRanges_append hchars hstart
  rw [stripRanges_rangeText] at hstrip
  rw [Entry.head_eq, Entry.head_eq]
  simpa [range] using hstrip

-- `front` is the indentation. It ends with a space, and that stays only because the node behind it
-- does not start with a bracket.
mutual

theorem stripRanges_renderAt : ∀ (sexp : Sexp) (level : Nat) (front rest : List Char),
    '[' ∉ front → sexp.Named → rest.head? ≠ some '[' →
    stripRanges 0 (front ++ (renderAt (some index) level sexp).toList ++ rest) =
      front ++ (renderAt none level sexp).toList ++ stripRanges 0 rest
  | .node field kind span children, level, front, rest, hfront, h, hrest => by
      cases h with
      | node hfield hkind hchildren =>
          have hentry : Entry.Named ⟨level, field, kind, span⟩ := ⟨hfield, hkind⟩
          have hclose : stripRanges 0 ([')'] ++ rest) = [')'] ++ stripRanges 0 rest :=
            stripRanges_append (by decide) hrest
          rw [List.singleton_append, List.singleton_append] at hclose
          have hhead := stripRanges_head index hentry hfront
            ((renderAll (some index) (level + 1) children).toList ++ ')' :: rest)
          rw [stripRanges_renderAll children (level + 1) (')' :: rest) hchildren
            (fun h => absurd (Option.some.inj h) (by decide)), hclose] at hhead
          rw [renderAt, renderAt]
          simpa [Entry.head] using hhead

theorem stripRanges_renderAll : ∀ (children : List Sexp) (level : Nat) (rest : List Char),
    (∀ child ∈ children, child.Named) → rest.head? ≠ some '[' →
    stripRanges 0 ((renderAll (some index) level children).toList ++ rest) =
      (renderAll none level children).toList ++ stripRanges 0 rest
  | [], _, _, _, _ => by
      rw [renderAll, renderAll]
      rfl
  | child :: children, level, rest, h, hrest => by
      obtain ⟨hchild, hchildren⟩ := List.forall_mem_cons.mp h
      have hnewline : '[' ∉ (newline level).toList := by
        rw [newline_toList]
        simp
      have hfirst := stripRanges_renderAt child level _
        ((renderAll (some index) level children).toList ++ rest) hnewline hchild
        (head?_renderAll _ level children hrest)
      rw [stripRanges_renderAll children level rest hchildren hrest] at hfirst
      rw [renderAll, renderAll]
      simpa using hfirst

end

/-- What is left of the text of a view without its places is its text without places. -/
theorem stripRanges_render {sexp : Sexp} (h : sexp.Named) :
    stripRanges 0 (render (some index) sexp).toList = (render none sexp).toList := by
  have hstrip := stripRanges_renderAt index sexp 0 [] [] List.not_mem_nil h nofun
  simpa [stripRanges, render] using hstrip

example :
    stripRanges 0 "(comment [0, 0] - [0, 3]\n  tag: (comment_tag [0, 0] - [0, 1]))".toList =
      "(comment\n  tag: (comment_tag))".toList := by
  decide

/-! ### Nodes and fields -/

mutual

/-- The nodes and fields of a view, wherever they are. -/
def unplaced : Sexp → Sexp
  | .node field kind _ children => .node field kind ⟨0, 0⟩ (allUnplaced children)

/-- The nodes and fields of several views. -/
def allUnplaced : List Sexp → List Sexp
  | [] => []
  | child :: children => child.unplaced :: allUnplaced children

end

theorem allUnplaced_append (sexps sexps' : List Sexp) :
    allUnplaced (sexps ++ sexps') = allUnplaced sexps ++ allUnplaced sexps' := by
  induction sexps with
  | nil => rfl
  | cons sexp sexps ih => rw [List.cons_append, allUnplaced, ih, allUnplaced, List.cons_append]

mutual

theorem renderAt_unplaced : ∀ (sexp : Sexp) (level : Nat),
    renderAt none level sexp.unplaced = renderAt none level sexp
  | .node field kind span children, level => by
      rw [unplaced, renderAt, renderAt, renderAll_unplaced children (level + 1)]
      rfl

theorem renderAll_unplaced : ∀ (children : List Sexp) (level : Nat),
    renderAll none level (allUnplaced children) = renderAll none level children
  | [], _ => rfl
  | child :: children, level => by
      rw [allUnplaced, renderAll, renderAll, renderAt_unplaced child level,
        renderAll_unplaced children level]

end

/-- Without places, views of the same nodes and fields have the same text. -/
theorem render_congr {sexp sexp' : Sexp} (h : sexp.unplaced = sexp'.unplaced) :
    render none sexp = render none sexp' := by
  rw [render, render, ← renderAt_unplaced sexp 0, h, renderAt_unplaced]

end Sexp

end Mcfunction
