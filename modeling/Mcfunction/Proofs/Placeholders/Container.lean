import Mcfunction.Proofs.Parser.Container
import Mcfunction.Proofs.Placeholders.Told

/-!
# Placeholders in Containers

A container in value position is the only part of a container that becomes a placeholder. An
error anywhere else passes to the container around it, and the placeholders found so far are
dropped with the rest of that container.

## Main results

* `value_tells`, `list_tells`, `compound_tells`: containers with any number of levels left.
* `pathFrom_tells`: the path whose first name has been read.
-/

namespace Mcfunction.Parser

variable {α : Type} {limit : Nat} {c d origin opener : Cursor} {bracket : Bracket}

/-- What follows a separator stays in the statement of the container. -/
theorem elements_tells {element : Parser α} {piece : Cursor → α → Cursor → Prop}
    {parts : α → List ErrorNode} {fuel : Nat} (hpiece : Forward piece)
    (helement : ∀ c, Reads limit c c element (piece c))
    (htells : ∀ c, Tells limit c c element [] parts) (horigin : Within origin opener)
    (hopen : StartsWithByte opener) (hwithin : Within opener c) :
    Tells limit origin c (elements element bracket opener fuel) [] (List.flatMap parts) := by
  induction fuel generalizing c with
  | zero => exact .breakOff
  | succ fuel ih =>
      rw [elements]
      refine ((htells c).weaken (horigin.trans hwithin)).bind fun {first log d} hrun => ?_
      have hd := hwithin.trans (hpiece _ _ _ ((helement c).returns hrun)).2
      refine .steady_bind (separator_steady horigin hopen hd) fun closed e hseparator => ?_
      have he := hd.trans (hseparator.within bracket.closer_ne_newline)
      cases closed with
      | true => exact .pure (List.append_nil _)
      | false => exact (ih he).bind fun _ => .pure rfl

section Values

variable {value : Parser NbtValue} {piece : Cursor → NbtValue → Cursor → Prop}
  (hpiece : Forward piece) (hvalue : ∀ c, Reads limit c c value (piece c))
  (htells : ∀ c, Tells limit c c value [] fun value => placeholders value.nodes)

include htells in
/-- The placeholders of a pair tell its errors. -/
theorem pair_tells (c : Cursor) :
    Tells limit c c (pair value) [] fun pair => placeholders pair.nodes := by
  rw [pair, tells_here_bind]
  refine .steady_bind (key_steady c) fun key d hkey => ?_
  have hd := hkey.placed.within.trans (.skipTrivia d)
  rw [tells_skipTrivia_bind]
  refine .steady_bind ((operator_steady _).weaken hd) ?_
  rintro operator _ ⟨hoperator, rfl⟩
  obtain ⟨x, hpeek, hx⟩ := Option.bind_eq_some_iff.mp hoperator
  have hnext := hd.trans (Within.peek hpeek (by rintro rfl; cases hx)).2
  rw [tells_skipTrivia_bind]
  refine ((htells _).weaken (hnext.trans (.skipTrivia _))).bind fun _ => ?_
  exact .still_bind (.spanFrom _) fun span => .pure (NbtPair.placeholders_nodes _)

include hpiece hvalue htells

/-- The placeholders of a list tell its errors if those of its values do. -/
theorem listOf_tells (hpeek : c.peek = some '[') :
    Tells limit c c (listOf value) [] fun list => placeholders list.nodes := by
  have hopen := StartsWithByte.of_peek hpeek rfl
  have hcontent := (Within.peek hpeek (by decide)).2.trans (.skipTrivia (c.advance 1))
  have hpair : Forward (PairAt piece) := fun _ _ _ h => (h.placed hpiece).forward
  rw [listOf, tells_here_bind, tells_take_bind (Cursor.length_pos_of_peek hpeek),
    tells_skipTrivia_bind, tells_here_bind]
  by_cases hclose : (c.advance 1).skipTrivia.peek = some ']'
  · rw [if_pos (by simpa using hclose), tells_take_bind (Cursor.length_pos_of_peek hclose)]
    exact .still_bind (.spanFrom _) fun span => .pure rfl
  · rw [if_neg (by simpa using hclose)]
    refine .steady_bind (expectContent_steady (.refl c) hopen) ?_
    rintro _ _ ⟨rfl, -⟩
    split
    · rw [map_bind]
      refine (elements_tells hpair (pair_reads hpiece hvalue) (pair_tells htells) (.refl c) hopen
        hcontent).bind fun {pairs log d} _ => .still_bind (.spanFrom _) fun span => .pure ?_
      rw [NbtList.placeholders_nodes]
      exact NbtItems.placeholders_nodes_pairs pairs
    · rw [map_bind]
      refine (elements_tells hpiece hvalue htells (.refl c) hopen hcontent).bind
        fun {values log d} _ => .still_bind (.spanFrom _) fun span => .pure ?_
      rw [NbtList.placeholders_nodes]
      exact NbtItems.placeholders_nodes_values values

/-- The placeholders of a compound tell its errors if those of its values do. -/
theorem compoundOf_tells (hpeek : c.peek = some '{') :
    Tells limit c c (compoundOf value) [] fun compound => placeholders compound.nodes := by
  have hopen := StartsWithByte.of_peek hpeek rfl
  have hcontent := (Within.peek hpeek (by decide)).2.trans (.skipTrivia (c.advance 1))
  have hpair : Forward (PairAt piece) := fun _ _ _ h => (h.placed hpiece).forward
  rw [compoundOf, tells_here_bind, tells_take_bind (Cursor.length_pos_of_peek hpeek),
    tells_skipTrivia_bind, tells_here_bind]
  by_cases hclose : (c.advance 1).skipTrivia.peek = some '}'
  · have hnext := (Within.peek hclose (by decide)).1.le
    obtain ⟨tail, hrest⟩ := List.head?_eq_some_iff.mp hclose
    rw [if_pos (by simpa using hclose)]
    exact .stops (.failAt (.refl c) (hcontent.le.trans hnext) rfl
      (Cursor.advance_one_offset hrest rfl).symm)
  · rw [if_neg (by simpa using hclose)]
    refine .steady_bind (expectContent_steady (.refl c) hopen) ?_
    rintro _ _ ⟨rfl, -⟩
    refine (elements_tells hpair (pair_reads hpiece hvalue) (pair_tells htells) (.refl c) hopen
      hcontent).bind fun {pairs log d} _ => .still_bind (.spanFrom _) fun span => .pure ?_
    exact NbtCompound.placeholders_nodes _

end Values

/-! ### Values -/

theorem placeholders_of_isScalar {value : NbtValue} (h : value.isScalar) :
    placeholders value.nodes = [] := by
  cases value with
  | string _ | number _ | resource _ | boolean _ => rfl
  | list _ | compound _ | interpolated _ | error _ => cases h

/-- Values that hold no others have no placeholders, and their errors are not caught. -/
theorem scalar_tells (c : Cursor) :
    Tells limit c c scalar [] fun value => placeholders value.nodes := by
  have hsteady : Steady c c scalar (ValueOfAt (fun _ _ _ => False) (fun _ _ _ => False) c) :=
    scalar_steady c
  refine .of_steady (hsteady.returns scalar_returns) fun value d h => ?_
  exact placeholders_of_isScalar h.2

/-- A container in value position becomes a placeholder. -/
theorem valueOf_tells {list : Parser NbtList} {compound : Parser NbtCompound}
    (hlist : ∀ c, c.peek = some '[' →
      Tells limit c c list [] fun list => placeholders list.nodes)
    (hcompound : ∀ c, c.peek = some '{' →
      Tells limit c c compound [] fun compound => placeholders compound.nodes) (c : Cursor) :
    Tells limit c c (valueOf list compound) [] fun value => placeholders value.nodes := by
  rw [valueOf, tells_here_bind]
  by_cases hinterpolated : Scan.startsInterpolated false c.rest
  · rw [if_pos hinterpolated]
    exact .steady_bind (interpolated_steady (.refl c) hinterpolated) fun _ _ _ => .pure rfl
  · rw [if_neg hinterpolated]
    have hquoted : ∀ {x}, c.peek = some x → x = '"' ∨ x = '\'' →
        Tells limit c c (quotedString >>= fun literal => Pure.pure (NbtValue.string literal)) []
          fun value => placeholders value.nodes := by
      intro x hpeek hx
      exact .steady_bind (quotedString_steady (.refl c) (startsQuoted_of_peek hpeek hx))
        fun _ _ _ => .pure rfl
    split
    · rename_i hpeek
      exact hquoted hpeek (.inl rfl)
    · rename_i hpeek
      exact hquoted hpeek (.inr rfl)
    · rename_i hpeek
      exact .orPlaceholder (Cursor.atLineEnd_of_peek hpeek (by decide)) (fun node => rfl)
        (.map (hlist c hpeek))
    · rename_i hpeek
      exact .orPlaceholder (Cursor.atLineEnd_of_peek hpeek (by decide)) (fun node => rfl)
        (.map (hcompound c hpeek))
    iterate 5 exact .fail ⟨c, c, .refl c, le_rfl, rfl⟩
    · exact scalar_tells c

/-- The error for nesting too deep is told by the placeholder that takes its place. -/
theorem tooDeep_tells {start : Cursor} {pending : List ErrorNode} {parts : α → List ErrorNode}
    (horigin : Within origin start) : Tells limit origin c (tooDeep start) pending parts := by
  obtain ⟨d, hcd, hend⟩ := start.exists_charEnd
  rw [Tells, tooDeep_run]
  exact .failed ⟨start, d, horigin, hcd, by rw [hend]; rfl⟩ (List.forall_mem_nil _)

/-- So is the error of a container that is cut off. -/
theorem containerTooDeep_tells {parts : α → List ErrorNode} (c : Cursor) :
    Tells limit c c containerTooDeep [] parts := by
  rw [containerTooDeep, tells_here_bind]
  exact tooDeep_tells (.refl c)

/-- The placeholders of a value tell its errors, whatever room for nesting is left. -/
theorem value_tells (room : Nat) (c : Cursor) :
    Tells limit c c (value room) [] fun value => placeholders value.nodes := by
  induction room generalizing c with
  | zero =>
      rw [value_zero]
      exact valueOf_tells (fun c _ => containerTooDeep_tells c)
        (fun c _ => containerTooDeep_tells c) c
  | succ room ih =>
      rw [value_succ]
      exact valueOf_tells
        (fun c hpeek => listOf_tells (ValueAt.forward room) (value_reads room) ih hpeek)
        (fun c hpeek => compoundOf_tells (ValueAt.forward room) (value_reads room) ih hpeek) c

/-- The placeholders of such a list tell its errors. -/
theorem list_tells (room : Nat) (hpeek : c.peek = some '[') :
    Tells limit c c (list room) [] fun list => placeholders list.nodes := by
  cases room with
  | zero => exact containerTooDeep_tells c
  | succ room =>
      exact listOf_tells (ValueAt.forward room) (value_reads room) (value_tells room) hpeek

/-- The placeholders of such a compound tell its errors. -/
theorem compound_tells (room : Nat) (hpeek : c.peek = some '{') :
    Tells limit c c (compound room) [] fun compound => placeholders compound.nodes := by
  cases room with
  | zero => exact containerTooDeep_tells c
  | succ room =>
      exact compoundOf_tells (ValueAt.forward room) (value_reads room) (value_tells room) hpeek

/-! ### Paths -/

/-- The placeholders of suffixes tell their errors. -/
theorem suffixes_tells {room fuel : Nat} (horigin : Within origin c) :
    Tells limit origin c (suffixes (containers room) fuel) []
      (List.flatMap fun suffix => placeholders suffix.nodes) := by
  induction fuel generalizing c with
  | zero => exact .breakOff
  | succ fuel ih =>
      rw [suffixes, tells_here_bind]
      split
      · rename_i hpeek
        refine ((list_tells room hpeek).weaken horigin).bind fun {index log d} hrun => ?_
        have hindex := (list_reads room hpeek).returns hrun
        exact (ih (horigin.trans hindex.placed.within)).bind fun _ => .pure rfl
      · rename_i hpeek
        refine ((compound_tells room hpeek).weaken horigin).bind fun {filter log d} hrun => ?_
        have hfilter := (compound_reads room hpeek).returns hrun
        exact (ih (horigin.trans hfilter.placed.within)).bind fun _ => .pure rfl
      · exact .pure rfl

/-- The placeholders of the segments of a path tell their errors. -/
theorem segments_tells {room fuel : Nat} {name : NbtKey} (horigin : Within origin c) :
    Tells limit origin c (segments (containers room) fuel name) []
      (List.flatMap fun segment => placeholders segment.nodes) := by
  induction fuel generalizing name c with
  | zero => exact .breakOff
  | succ fuel ih =>
      rw [segments, tells_here_bind]
      refine (suffixes_tells horigin).bind fun {suffixes log d} hrun => ?_
      have hd := horigin.trans
        ((suffixes_reads le_rfl (Nat.lt_succ_self _)).returns hrun).within
      refine .still_bind (.spanFrom _) fun span => ?_
      have hsegment : placeholders (PathSegment.nodes ⟨name, suffixes, span⟩) =
          suffixes.flatMap fun suffix => placeholders suffix.nodes :=
        PathSegment.placeholders_nodes _
      rw [tells_here_bind]
      by_cases hpoint : d.peek = some '.'
      · have hnext := hd.trans (Within.peek hpoint (by decide)).2
        rw [if_pos (by simpa using hpoint), tells_take_bind (Cursor.length_pos_of_peek hpoint)]
        refine .steady_bind ((segmentName_steady _).weaken hnext) fun next e hkey => ?_
        refine (ih (hnext.trans hkey.placed.within)).bind fun _ => .pure ?_
        rw [List.flatMap_cons, hsegment]
        rfl
      · rw [if_neg (by simpa using hpoint)]
        refine .pure ?_
        rw [List.flatMap_singleton, hsegment]
        rfl

/-- The placeholders of a path tell its errors. -/
theorem pathFrom_tells {room : Nat} {name : NbtKey} (horigin : Within origin c) :
    Tells limit origin c (pathFrom (containers room) name) []
      fun path => path.segments.flatMap fun segment => placeholders segment.nodes := by
  rw [pathFrom, tells_here_bind]
  exact (segments_tells horigin).bind fun _ => .still_bind (.spanFrom _) fun span => .pure rfl

end Mcfunction.Parser
