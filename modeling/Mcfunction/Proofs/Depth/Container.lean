import Mcfunction.Proofs.Depth.Limits
import Mcfunction.Tree.Depth

/-!
# Containers with Different Limits

What holds for values with `room` levels left holds for the containers around them with one level
more, and a container in value position has as many levels left as the value.

## Main results

* `listOf_limits`, `compoundOf_limits`: containers around values.
* `valueOf_limits`: values that are containers.
* `pathFrom_limits`: paths.
-/

namespace Mcfunction.Parser

variable {α : Type} {cut : Prop} {wide narrow : Settings} {room : Nat}

/-! ### Inside a container -/

/-- The elements of a container are parsed alike unless one of them is too deep. -/
theorem elements_limits {element element' : Parser α} {deep : α → Prop} {bracket : Bracket}
    {opener : Cursor} {fuel : Nat} (helement : Limits cut wide narrow deep element element') :
    Limits cut wide narrow (fun parts => ∃ part ∈ parts, deep part)
      (elements element bracket opener fuel) (elements element' bracket opener fuel) := by
  induction fuel with
  | zero => exact .breakOff _
  | succ fuel ih =>
      rw [elements, elements]
      refine helement.bind (fun first hfirst => ?_) fun first hfirst => ?_
      · have hmem : ∀ others, ∃ part ∈ first :: others, deep part :=
          fun others => ⟨first, List.mem_cons_self, hfirst⟩
        refine .andThen fun closed => ?_
        split
        · exact .pure (hmem [])
        · exact .andThen fun others => .pure (hmem others)
      · refine .plain_bind (plain_separator bracket opener) fun closed => ?_
        split
        · exact .pure (by simpa using hfirst)
        · refine ih.bind (fun others hothers => .pure ?_) fun others hothers => .pure ?_
          · obtain ⟨part, hpart, hdeep⟩ := hothers
            exact ⟨part, List.mem_cons_of_mem first hpart, hdeep⟩
          · rintro ⟨part, hpart, hdeep⟩
            rcases List.mem_cons.mp hpart with rfl | hpart
            · exact hfirst hdeep
            · exact hothers ⟨part, hpart, hdeep⟩

section Values

variable {value value' : Parser NbtValue}
  (hvalue : Limits cut wide narrow (fun value => room < value.nest) value value')

include hvalue

/-- Pairs are parsed alike unless their values nest too deep. -/
theorem pair_limits :
    Limits cut wide narrow (fun pair => room < pair.nest) (pair value) (pair value') := by
  refine .plain_bind .here fun start => .plain_bind plain_key fun key =>
    .plain_bind .skipTrivia fun _ => .plain_bind plain_operator fun operator =>
      .plain_bind .skipTrivia fun _ => hvalue.bind (fun inner hinner => ?_) fun inner hinner => ?_
  · exact .andThen fun span => .pure hinner
  · exact .plain_bind (.spanFrom _) fun span => .pure hinner

/-- Several pairs are parsed alike unless one of them nests too deep. -/
theorem pairs_limits {bracket : Bracket} {opener : Cursor} {fuel : Nat} :
    Limits cut wide narrow (fun pairs => room < NbtPair.allNest pairs)
      (elements (pair value) bracket opener fuel)
      (elements (pair value') bracket opener fuel) := by
  refine (elements_limits (pair_limits hvalue)).of_iff fun pairs => ?_
  rw [NbtPair.allNest_eq_deepest]
  exact lt_deepest_iff

/-- Lists, which count themselves, are parsed alike unless they nest too deep. -/
theorem listOf_limits :
    Limits cut wide narrow (fun list => room + 1 < list.nest) (listOf value) (listOf value') := by
  refine .plain_bind .here fun opener => .plain_bind (.take 1) fun _ =>
    .plain_bind .skipTrivia fun _ => .plain_bind .here fun content => ?_
  split
  · refine .plain_bind (.take 1) fun _ => .plain_bind (.spanFrom _) fun span => .pure ?_
    exact Nat.not_lt.mpr (Nat.le_add_left 1 room)
  · refine .plain_bind (plain_expectContent _ _) fun _ => ?_
    have hclose : ∀ {items items' : Parser NbtItems},
        Limits cut wide narrow (fun items => room < items.nest) items items' →
        Limits cut wide narrow (fun list => room + 1 < list.nest)
          (items >>= fun items => spanFrom opener.offset >>= fun span =>
            Pure.pure (⟨items, span⟩ : NbtList))
          (items' >>= fun items => spanFrom opener.offset >>= fun span =>
            Pure.pure (⟨items, span⟩ : NbtList)) := by
      intro items items' hitems
      refine hitems.bind (fun items hdeep => ?_) fun items hdeep => ?_
      · exact .andThen fun span => .pure (Nat.succ_lt_succ hdeep)
      · refine .plain_bind (.spanFrom _) fun span => .pure fun h => ?_
        exact hdeep (Nat.lt_of_succ_lt_succ h)
    dsimp only
    split
    · exact hclose (.map (pairs_limits hvalue))
    · refine hclose (.map ((elements_limits hvalue).of_iff fun values => ?_))
      have hnest : (NbtItems.values values).nest = deepest NbtValue.nest values :=
        NbtValue.allNest_eq_deepest values
      rw [hnest]
      exact lt_deepest_iff

/-- Compounds, which count themselves, are parsed alike unless they nest too deep. -/
theorem compoundOf_limits :
    Limits cut wide narrow (fun compound => room + 1 < compound.nest) (compoundOf value)
      (compoundOf value') := by
  refine .plain_bind .here fun opener => .plain_bind (.take 1) fun _ =>
    .plain_bind .skipTrivia fun _ => .plain_bind .here fun content => ?_
  split
  · exact .failAt _ _ _
  · refine .plain_bind (plain_expectContent _ _) fun _ => ?_
    refine (pairs_limits hvalue).bind (fun pairs hdeep => ?_) fun pairs hdeep => ?_
    · exact .andThen fun span => .pure (Nat.succ_lt_succ hdeep)
    · refine .plain_bind (.spanFrom _) fun span => .pure fun h => ?_
      exact hdeep (Nat.lt_of_succ_lt_succ h)

end Values

/-! ### Values -/

theorem NbtValue.nest_of_isScalar {value : NbtValue} (h : value.isScalar) : value.nest = 0 := by
  cases value with
  | string _ | number _ | resource _ | boolean _ => rfl
  | list _ | compound _ | interpolated _ | error _ => cases h

/-- Values whose containers have as many levels left as the values. -/
theorem valueOf_limits {list list' : Parser NbtList} {compound compound' : Parser NbtCompound}
    (h : Settings.Compared cut wide narrow)
    (hlist : Limits cut wide narrow (fun list => room < list.nest) list list')
    (hcompound :
      Limits cut wide narrow (fun compound => room < compound.nest) compound compound') :
    Limits cut wide narrow (fun value => room < value.nest) (valueOf list compound)
      (valueOf list' compound') := by
  refine .plain_bind .here fun start => ?_
  split
  · exact .plain_bind (plain_interpolated false) fun _ => .pure (Nat.not_lt_zero room)
  · split
    · exact .plain_bind plain_quotedString fun _ => .pure (Nat.not_lt_zero room)
    · exact .plain_bind plain_quotedString fun _ => .pure (Nat.not_lt_zero room)
    · exact .orPlaceholder h (fun _ => Nat.not_lt_zero room) (.map hlist)
    · exact .orPlaceholder h (fun _ => Nat.not_lt_zero room) (.map hcompound)
    iterate 5 exact .fail _
    · refine .of_plain plain_scalar fun s c value log d hrun hdeep => ?_
      rw [NbtValue.nest_of_isScalar (scalar_returns s c value log d hrun)] at hdeep
      exact Nat.not_lt_zero room hdeep

/-! ### Paths -/

/-- The parsers of lists and compounds with different limits. -/
structure Containers.Limits (cut : Prop) (wide narrow : Settings) (room : Nat)
    (inside inside' : Containers) : Prop where
  /-- Lists. -/
  list : Parser.Limits cut wide narrow (fun list => room < list.nest) inside.list inside'.list
  /-- Compounds. -/
  compound : Parser.Limits cut wide narrow (fun compound => room < compound.nest)
    inside.compound inside'.compound

variable {inside inside' : Containers} (hinside : inside.Limits cut wide narrow room inside')

include hinside

/-- The suffixes of a key are parsed alike unless one of them nests too deep. -/
theorem suffixes_limits (fuel : Nat) :
    Limits cut wide narrow (fun suffixes => room < deepest PathSuffix.nest suffixes)
      (suffixes inside fuel) (suffixes inside' fuel) := by
  induction fuel with
  | zero => exact .breakOff _
  | succ fuel ih =>
      -- a suffix in front of others, of which one is too deep if the suffix is
      have hnext : ∀ suffix : PathSuffix, ¬ room < suffix.nest →
          Limits cut wide narrow (fun suffixes => room < deepest PathSuffix.nest suffixes)
            (suffixes inside fuel >>= fun others => Pure.pure (suffix :: others))
            (suffixes inside' fuel >>= fun others => Pure.pure (suffix :: others)) := by
        intro suffix hsuffix
        refine ih.bind (fun others hothers => .pure ?_) fun others hothers => .pure ?_
        · exact lt_deepest_cons_iff.mpr (.inr hothers)
        · exact fun h => (lt_deepest_cons_iff.mp h).elim hsuffix hothers
      rw [suffixes, suffixes]
      refine .plain_bind .here fun start => ?_
      split
      · refine hinside.list.bind (fun index hindex => ?_)
          fun index hindex => hnext (.index index) hindex
        exact .andThen fun others => .pure (lt_deepest_cons_iff.mpr (.inl hindex))
      · refine hinside.compound.bind (fun filter hfilter => ?_)
          fun filter hfilter => hnext (.filter filter) hfilter
        exact .andThen fun others => .pure (lt_deepest_cons_iff.mpr (.inl hfilter))
      · exact .pure (Nat.not_lt_zero room)

/-- The segments of a path are parsed alike unless one of them nests too deep. -/
theorem segments_limits (fuel : Nat) (name : NbtKey) :
    Limits cut wide narrow (fun segments => room < deepest PathSegment.nest segments)
      (segments inside fuel name) (segments inside' fuel name) := by
  induction fuel generalizing name with
  | zero => exact .breakOff _
  | succ fuel ih =>
      rw [segments, segments]
      refine .plain_bind .here fun start =>
        (suffixes_limits hinside _).bind (fun suffixes hsuffixes => ?_) fun suffixes hsuffixes => ?_
      · refine .andThen fun span => .andThen fun here => ?_
        split
        · exact .andThen fun _ => .andThen fun next => .andThen fun others =>
            .pure (lt_deepest_cons_iff.mpr (.inl hsuffixes))
        · exact .pure (lt_deepest_cons_iff.mpr (.inl hsuffixes))
      · refine .plain_bind (.spanFrom _) fun span => .plain_bind .here fun here => ?_
        split
        · refine .plain_bind (.take 1) fun _ => .plain_bind plain_segmentName fun next => ?_
          refine (ih next).bind (fun others hothers => .pure ?_) fun others hothers => .pure ?_
          · exact lt_deepest_cons_iff.mpr (.inr hothers)
          · exact fun h => (lt_deepest_cons_iff.mp h).elim hsuffixes hothers
        · refine .pure fun h => (lt_deepest_cons_iff.mp h).elim hsuffixes ?_
          exact Nat.not_lt_zero room

/-- Paths are parsed alike unless they nest too deep. -/
theorem pathFrom_limits (name : NbtKey) :
    Limits cut wide narrow (fun path => room < path.nest) (pathFrom inside name)
      (pathFrom inside' name) := by
  refine .plain_bind .here fun start => (segments_limits hinside _ name).bind
    (fun segments hdeep => ?_) fun segments hdeep => ?_
  · exact .andThen fun span => .pure hdeep
  · exact .plain_bind (.spanFrom _) fun span => .pure hdeep

end Mcfunction.Parser
