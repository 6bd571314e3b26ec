import Mcfunction.Proofs.Bracketed.Command
import Mcfunction.Proofs.TooDeep.Spares

/-!
# Containers That a Smaller Limit Cuts Off

Values, containers and paths in a strict parse and in a tolerant one with fewer levels. With a level
left both runs stop at the same places; where nothing may nest, a container becomes a placeholder
that ends where the container does.

## Main results

* `value_spares`: values with few levels left.
* `containers_spares`, `pathFrom_spares`: containers and paths with at least one level left.
-/

namespace Mcfunction

variable {α : Type} {many limit few room : Nat} {c d : Cursor}

/-- Recovery skips all these parts whole. -/
def SkippedWhole (nodes : List Node) : Prop :=
  ∀ node ∈ nodes, node.isSkippedWhole

namespace Parser

/-! ### Inside a container -/

/-- The elements of a container are spared if each of them is. -/
theorem elements_spares {element element' : Parser α} {good : α → Prop} {bracket : Bracket}
    {opener : Cursor} {fuel : Nat}
    (helement : ∀ c, Spares many limit .same good c element element') :
    Spares many limit .same (fun parts => ∀ part ∈ parts, good part) c
      (elements element bracket opener fuel) (elements element' bracket opener fuel) := by
  induction fuel generalizing c with
  | zero => exact .of_plain (.breakOff _)
  | succ fuel ih =>
      rw [elements, elements]
      refine (helement c).bind (fun first => ?_) fun first first' d => ?_
      · have hfirst : ∀ others : List α, (∀ part ∈ first :: others, good part) → good first :=
          fun others h => h first List.mem_cons_self
        refine .andThen fun closed => ?_
        split
        · exact .pure (hfirst [])
        · exact .andThen fun others => .pure (hfirst others)
      · refine .plain_bind (plain_separator bracket opener) fun closed e => ?_
        split
        · exact .pure _ _
        · refine ih.bind (fun others => .pure fun h part hpart => ?_) fun _ _ _ => .pure _ _
          exact h part (List.mem_cons_of_mem first hpart)

section Values

variable {value value' : Parser NbtValue} {good : NbtValue → Prop}
  (hvalue : ∀ c, Spares many limit .same good c value value')

include hvalue

/-- Pairs are spared if their values are. -/
theorem pair_spares :
    Spares many limit .same (fun pair => good pair.value) c (pair value) (pair value') := by
  refine .plain_bind .here fun start _ => .plain_bind plain_key fun key _ =>
    .plain_bind .skipTrivia fun _ _ => .plain_bind plain_operator fun operator _ =>
      .plain_bind .skipTrivia fun _ e => (hvalue e).bind (fun inner => ?_) fun _ _ _ => ?_
  · exact .andThen fun span => .pure id
  · exact .plain_bind (.spanFrom _) fun _ _ => .pure _ _

/-- Several pairs are spared if their values are. -/
theorem pairs_spares {bracket : Bracket} {opener : Cursor} {fuel : Nat} :
    Spares many limit .same (fun pairs => ∀ inner ∈ pairs.map NbtPair.value, good inner) c
      (elements (pair value) bracket opener fuel) (elements (pair value') bracket opener fuel) :=
  (elements_spares fun _ => pair_spares hvalue).mono fun _ h => List.forall_mem_map.mp h

/-- Lists are spared if their values are. -/
theorem listOf_spares :
    Spares many limit .same (fun list => ∀ inner ∈ list.members, good inner) c (listOf value)
      (listOf value') := by
  refine .plain_bind .here fun opener _ => .plain_bind (.take 1) fun _ _ =>
    .plain_bind .skipTrivia fun _ _ => .plain_bind .here fun content e => ?_
  split
  · exact .of_plain (.bind (.take 1) fun _ => .bind (.spanFrom _) fun _ => .pure _)
  · have hclose : ∀ {items items' : Parser NbtItems} {e},
        Spares many limit .same
          (fun items => ∀ inner ∈ (NbtList.mk items default).members, good inner) e items items' →
        Spares many limit .same (fun list => ∀ inner ∈ list.members, good inner) e
          (items >>= fun items => spanFrom opener.offset >>= fun span =>
            Pure.pure (⟨items, span⟩ : NbtList))
          (items' >>= fun items => spanFrom opener.offset >>= fun span =>
            Pure.pure (⟨items, span⟩ : NbtList)) := by
      intro items items' e hitems
      refine hitems.bind (fun items => .andThen fun span => .pure id) fun _ _ _ => ?_
      exact .plain_bind (.spanFrom _) fun _ _ => .pure _ _
    refine .plain_bind (plain_expectContent _ _) fun _ e => ?_
    dsimp only
    split
    · exact hclose (.map (pairs_spares hvalue))
    · exact hclose (.map (elements_spares hvalue))

/-- Compounds are spared if their values are. -/
theorem compoundOf_spares :
    Spares many limit .same (fun compound => ∀ inner ∈ compound.members, good inner) c
      (compoundOf value) (compoundOf value') := by
  refine .plain_bind .here fun opener _ => .plain_bind (.take 1) fun _ _ =>
    .plain_bind .skipTrivia fun _ _ => .plain_bind .here fun content _ => ?_
  split
  · exact .of_plain (.failAt _ _ _)
  · refine .plain_bind (plain_expectContent _ _) fun _ e => ?_
    refine (pairs_spares hvalue).bind (fun pairs => .andThen fun span => .pure id) fun _ _ _ => ?_
    exact .plain_bind (.spanFrom _) fun _ _ => .pure _ _

end Values

/-! ### Values -/

/-- Values, given how their containers become placeholders. -/
theorem valueOf_spares {list list' : Parser NbtList} {compound compound' : Parser NbtCompound}
    {good : NbtValue → Prop}
    (hlist : c.peek = some '[' → Spares many limit .same good c
      (orPlaceholder (NbtValue.list <$> list) .error)
      (orPlaceholder (NbtValue.list <$> list') .error))
    (hcompound : c.peek = some '{' → Spares many limit .same good c
      (orPlaceholder (NbtValue.compound <$> compound) .error)
      (orPlaceholder (NbtValue.compound <$> compound') .error)) :
    Spares many limit .same good c (valueOf list compound) (valueOf list' compound') := by
  refine .here_bind ?_
  split
  · exact .of_plain (.bind (plain_interpolated false) fun _ => .pure _)
  · split
    · exact .of_plain (.bind plain_quotedString fun _ => .pure _)
    · exact .of_plain (.bind plain_quotedString fun _ => .pure _)
    · exact hlist ‹_›
    · exact hcompound ‹_›
    iterate 5 exact .of_plain (.fail _)
    · exact .of_plain plain_scalar

/-- A container where none may stand. -/
theorem containerTooDeep_spares {p : Parser α} {good : α → Prop}
    (hboxed : ∀ value log d, p ⟨many, .strict⟩ c = .done value log d → good value → Boxed c d) :
    Spares many limit (.boxed c) good c p containerTooDeep := by
  intro value log d hrun hgood
  rw [containerTooDeep_run]
  exact .failed .nil rfl ⟨hboxed _ _ _ hrun hgood, rfl⟩

/-- With no level left, what is skipped as a whole is transparent. -/
theorem transparent_of_skippedWhole {value : NbtValue} (h : SkippedWhole (value.tooDeep 0))
    (hnest : 0 < value.nest) : Transparent value.nodes := by
  rw [NbtValue.tooDeep, if_neg hnest.ne'] at h
  exact List.all_eq_true.mp (h _ (List.mem_singleton_self _))

/-- Values with few levels left, by induction on these. -/
theorem value_spares (hle : few ≤ room) (c : Cursor) :
    Spares many limit .same (fun value => SkippedWhole (value.tooDeep few)) c (value room)
      (value few) := by
  induction few generalizing room c with
  | zero =>
      rw [value_eq room, value_eq 0]
      refine valueOf_spares (fun hpeek => ?_) fun hpeek => ?_
      · refine .container (.map (containerTooDeep_spares fun inner log d hrun hgood => ?_))
        refine ((list_reads room hpeek).post_of_run hrun).boxed ?_
        have hnodes := transparent_of_skippedWhole hgood inner.nest_pos
        exact (List.forall_mem_cons.mp hnodes).2
      · refine .container (.map (containerTooDeep_spares fun inner log d hrun hgood => ?_))
        refine ((compound_reads room hpeek).post_of_run hrun).boxed ?_
        have hnodes := transparent_of_skippedWhole hgood inner.nest_pos
        exact (List.forall_mem_cons.mp hnodes).2
  | succ few ih =>
      obtain ⟨room, rfl⟩ : ∃ r, room = r + 1 := ⟨room - 1, by omega⟩
      have hvalue := fun c => ih (Nat.le_of_succ_le_succ hle) c
      rw [value_eq (room + 1), value_eq (few + 1)]
      refine valueOf_spares (fun _ => .container (.of_same (.map ?_) fun _ => rfl))
        fun _ => .container (.of_same (.map ?_) fun _ => rfl)
      · exact (listOf_spares hvalue).mono fun list => List.forall_mem_flatMap.mp
      · exact (compoundOf_spares hvalue).mono fun compound => List.forall_mem_flatMap.mp

/-! ### Paths -/

/-- Recovery skips whole what the values hold beyond so many levels. -/
def CutWhole (few : Nat) (values : List NbtValue) : Prop :=
  SkippedWhole (values.flatMap (NbtValue.tooDeep few))

theorem CutWhole.of_append {values values' : List NbtValue} (h : CutWhole few (values ++ values')) :
    CutWhole few values ∧ CutWhole few values' := by
  rw [CutWhole, List.flatMap_append] at h
  exact List.forall_mem_append.mp h

/-- Containers that may hold values with `few` levels left. -/
structure Containers.Spares (many limit few : Nat) (inside inside' : Containers) : Prop where
  /-- Lists. -/
  list : ∀ c, Parser.Spares many limit .same (fun list => CutWhole few list.members) c
    inside.list inside'.list
  /-- Compounds. -/
  compound : ∀ c, Parser.Spares many limit .same (fun compound => CutWhole few compound.members) c
    inside.compound inside'.compound

/-- Containers with at least one level left. -/
theorem containers_spares (hle : few ≤ room) :
    (containers (room + 1)).Spares many limit few (containers (few + 1)) where
  list _ := (listOf_spares (value_spares hle)).mono fun _ => List.forall_mem_flatMap.mp
  compound _ := (compoundOf_spares (value_spares hle)).mono fun _ => List.forall_mem_flatMap.mp

section Paths

variable {inside inside' : Containers} (hinside : inside.Spares many limit few inside')

include hinside

/-- The suffixes of a key are spared if the containers in them are. -/
theorem suffixes_spares (fuel : Nat) (c : Cursor) :
    Spares many limit .same (fun suffixes => CutWhole few (suffixes.flatMap PathSuffix.members)) c
      (suffixes inside fuel) (suffixes inside' fuel) := by
  induction fuel generalizing c with
  | zero => exact .of_plain (.breakOff _)
  | succ fuel ih =>
      have hparts : ∀ (suffix : PathSuffix) (others : List PathSuffix),
          CutWhole few ((suffix :: others).flatMap PathSuffix.members) →
          CutWhole few suffix.members ∧ CutWhole few (others.flatMap PathSuffix.members) := by
        intro suffix others h
        rw [List.flatMap_cons] at h
        exact h.of_append
      -- a suffix in front of others, which is skipped whole itself
      have hnext : ∀ (suffix suffix' : PathSuffix) d, Spares many limit .same
          (fun suffixes => CutWhole few (suffixes.flatMap PathSuffix.members)) d
          (suffixes inside fuel >>= fun others => Pure.pure (suffix :: others))
          (suffixes inside' fuel >>= fun others => Pure.pure (suffix' :: others)) :=
        fun suffix suffix' d =>
          (ih d).bind (fun others => .pure fun h => (hparts suffix others h).2)
            fun _ _ _ => .pure _ _
      rw [suffixes, suffixes]
      refine .plain_bind .here fun start d => ?_
      split
      · refine (hinside.list d).bind (fun index => ?_) fun index index' e => hnext _ _ e
        exact .andThen fun others => .pure fun h => (hparts (.index index) others h).1
      · refine (hinside.compound d).bind (fun filter => ?_) fun filter filter' e => hnext _ _ e
        exact .andThen fun others => .pure fun h => (hparts (.filter filter) others h).1
      · exact .pure _ _

/-- The segments of a path are spared if the containers in them are. -/
theorem segments_spares (fuel : Nat) (name : NbtKey) (c : Cursor) :
    Spares many limit .same
      (fun segments => CutWhole few
        ((segments.flatMap PathSegment.suffixes).flatMap PathSuffix.members)) c
      (segments inside fuel name) (segments inside' fuel name) := by
  induction fuel generalizing name c with
  | zero => exact .of_plain (.breakOff _)
  | succ fuel ih =>
      have hparts : ∀ {segment : PathSegment} {others : List PathSegment},
          CutWhole few
            (((segment :: others).flatMap PathSegment.suffixes).flatMap PathSuffix.members) →
          CutWhole few (segment.suffixes.flatMap PathSuffix.members) ∧
            CutWhole few ((others.flatMap PathSegment.suffixes).flatMap PathSuffix.members) := by
        intro segment others h
        rw [List.flatMap_cons, List.flatMap_append] at h
        exact h.of_append
      rw [segments, segments]
      refine .plain_bind .here fun start d =>
        (suffixes_spares hinside _ d).bind (fun suffixes => ?_) fun suffixes suffixes' e => ?_
      · refine .andThen fun span => .andThen fun here => ?_
        split
        · exact .andThen fun _ => .andThen fun next => .andThen fun others =>
            .pure fun h => (hparts h).1
        · exact .pure fun h => (hparts h).1
      · refine .plain_bind (.spanFrom _) fun span _ => .plain_bind .here fun here _ => ?_
        split
        · refine .plain_bind (.take 1) fun _ _ => .plain_bind plain_segmentName fun next e => ?_
          exact (ih next e).bind (fun others => .pure fun h => (hparts h).2) fun _ _ _ => .pure _ _
        · exact .pure _ _

/-- Paths are spared if the containers in them are. -/
theorem pathFrom_spares (name : NbtKey) (c : Cursor) :
    Spares many limit .same (fun path => CutWhole few path.members) c (pathFrom inside name)
      (pathFrom inside' name) := by
  refine .plain_bind .here fun start d => (segments_spares hinside _ name d).bind
    (fun segments => .andThen fun span => .pure id) fun _ _ _ => ?_
  exact .plain_bind (.spanFrom _) fun _ _ => .pure _ _

end Paths

end Parser

end Mcfunction
