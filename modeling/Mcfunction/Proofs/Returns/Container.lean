import Mcfunction.Proofs.Returns.Leaf

/-!
# Containers without Carriage Returns

Elements, keys and values stand behind trivia, and so never at a return. Only the name of a segment
of a path may be missing at one.

## Main results

* `value_mirrors`, `list_mirrors`, `compound_mirrors`: values and containers, with any number of
  levels left.
* `pathFrom_mirrors`: paths.
-/

namespace Mcfunction.Parser

open Text (unix unixCount)
open Scan (ReturnFree)

variable {t : DosText} {s : Settings} {c d opener : Cursor} {bracket : Bracket}

/-! ### Inside a container -/

/-- A single character that is no return is taken in both texts. -/
theorem mirrors_take_one_bind {α : Type} [Retell α] {f f' : Unit → Parser α} {x : Char}
    (hc : t.start ≤ c) (hpeek : c.peek = some x) (hx : x ≠ '\r') :
    Mirrors t s c (take 1 >>= f) (take 1 >>= f') ↔ Mirrors t s (c.advance 1) (f ()) (f' ()) :=
  mirrors_take_bind hc (Cursor.length_pos_of_peek hpeek)
    (DosText.returnFree_one hpeek hx).unixCount_eq.symm

section Opened

variable (hopener : t.start ≤ opener) (hopen : opener.peek = some '[' ∨ opener.peek = some '{')

include hopener hopen

/-- A container that is not closed is reported at the same bracket in both texts. -/
theorem unclosed_mirrors {α : Type} [Retell α] (hc : t.start ≤ c) :
    Mirrors t s c (unclosed bracket opener : Parser α) (unclosed bracket (t.back opener)) := by
  have hone : t.place (opener.offset + 1) = t.place opener.offset + 1 := by
    rcases hopen with hpeek | hpeek
    · exact DosText.place_succ hopener hpeek (by decide) rfl
    · exact DosText.place_succ hopener hpeek (by decide) rfl
  rw [unclosed, unclosed, mirrors_here_bind, DosText.back_length_sub hopener hc]
  generalize opener.rest.length - c.rest.length = count
  have htrimmed : Scan.trimEnd (opener.rest.take count) <+: opener.rest :=
    (Scan.isPrefix_trimEnd _).trans (List.take_prefix _ _)
  refine .failAt rfl rfl ?_
  rw [DosText.place_max, DosText.place_add_prefix hopener htrimmed, hone, DosText.back_rest,
    ← Text.unix_take, Scan.trimEnd_unix]
  rfl

/-- Both texts find content behind the opening bracket, or neither does. -/
theorem expectContent_mirrors (hc : t.start ≤ c) (hreturn : c.peek ≠ some '\r') :
    Mirrors t s c (expectContent bracket opener) (expectContent bracket (t.back opener)) := by
  rw [expectContent, expectContent, mirrors_here_bind, DosText.back_atLineEnd hc hreturn]
  split
  · exact unclosed_mirrors hopener hopen hc
  · exact .pure () hc

/-- Separators are read in lockstep. -/
theorem separator_mirrors (hc : t.start ≤ c) :
    Mirrors t s c (separator bracket opener) (separator bracket (t.back opener)) := by
  have hstart := hc.trans c.le_skipTrivia
  have hcloser : bracket.closer ≠ '\r' := by cases bracket <;> decide
  rw [separator, separator, mirrors_skipTrivia_bind hc, mirrors_here_bind,
    DosText.back_peek hstart (DosText.peek_skipTrivia c)]
  rcases hpeek : c.skipTrivia.peek with _ | x
  · exact unclosed_mirrors hopener hopen hstart
  · have hx : x ≠ '\r' := by
      rintro rfl
      exact DosText.peek_skipTrivia c hpeek
    have hnext := hstart.trans (Cursor.le_advance_of_peek hpeek)
    dsimp only
    split
    · rename_i hcomma
      obtain rfl := beq_iff_eq.mp hcomma
      have hmore := hnext.trans (Cursor.le_skipTrivia _)
      rw [mirrors_take_one_bind hstart hpeek hx, mirrors_skipTrivia_bind hnext, mirrors_here_bind,
        DosText.back_peek_beq hmore hcloser bracket.closer_ne_newline]
      split
      · exact .failAt rfl rfl (DosText.place_succ hstart hpeek hx rfl).symm
      · exact (expectContent_mirrors hopener hopen hmore (DosText.peek_skipTrivia _)).bind
          fun _ d hd => .pure false hd
    · split
      · rw [mirrors_take_one_bind hstart hpeek hx]
        exact .pure true hnext
      · split
        · exact unclosed_mirrors hopener hopen hstart
        · exact .failAt rfl rfl
            ((DosText.back_charEnd hstart).resolve_right (DosText.peek_skipTrivia c))

/-- Each element but the first stands behind the trivia after a comma. -/
theorem elements_mirrors {α : Type} [Retell α] {element element' : Parser α} {fuel fuel' : Nat}
    (helement : ∀ c, t.start ≤ c → c.peek ≠ some '\r' → Mirrors t s c element element')
    (hc : t.start ≤ c) (hreturn : c.peek ≠ some '\r') :
    Mirrors t s c (elements element bracket opener fuel)
      (elements element' bracket (t.back opener) fuel') := by
  induction fuel generalizing c fuel' with
  | zero => exact .breakOff _
  | succ fuel ih =>
      rcases fuel' with _ | fuel'
      · exact .breakOffUnix _
      · rw [elements, elements]
        refine (helement c hc hreturn).bind fun first d hd => ?_
        refine (separator_mirrors hopener hopen hd).bind_of fun closed _ d' hrun hd' => ?_
        cases separator_stop hrun with
        | close => exact .pure [first] hd'
        | comma =>
            exact (ih hd' (DosText.peek_skipTrivia _)).bind fun more d hd =>
              .pure (first :: more) hd

end Opened

/-! ### Keys and pairs -/

/-- Keys are read in lockstep. -/
theorem key_mirrors (hc : t.start ≤ c) (hreturn : c.peek ≠ some '\r') : Mirrors t s c key key := by
  have hpaired := DosText.paired_rest hc
  have hinterpolated : Scan.startsInterpolated true (t.back c).rest =
      Scan.startsInterpolated true c.rest := Scan.startsInterpolated_unix hpaired
  have hquoted : Scan.startsQuoted (t.back c).rest = Scan.startsQuoted c.rest :=
    Scan.startsQuoted_unix hpaired
  have hword : Scan.word (t.back c).rest = Scan.word c.rest := Scan.word_unix hpaired
  rw [key, mirrors_here_bind, hinterpolated, hquoted, hword]
  split
  · exact (interpolated_mirrors hc).bind fun argument d hd =>
      .pure (NbtKey.interpolated argument) hd
  · split
    · rename_i hquote
      exact (quotedString_mirrors hc hquote).bind fun literal d hd =>
        .pure (NbtKey.plain literal) hd
    · rcases hscan : Scan.word c.rest with _ | n
      · exact unexpected_mirrors hc fun hpeek => absurd hpeek hreturn
      · have hfree : ReturnFree c.rest n := (Scan.taken_word hscan).returnFree (by decide)
        exact (bareString_mirrors hc hfree).bind fun literal d hd => .pure (NbtKey.plain literal) hd

/-- The sign between a key and its value is read in lockstep. -/
theorem operator_mirrors (hc : t.start ≤ c) (hreturn : c.peek ≠ some '\r') :
    Mirrors t s c operator operator := by
  rw [operator, mirrors_here_bind, DosText.back_peek hc hreturn,
    DosText.back_atLineEnd hc hreturn]
  rcases hoperator : c.peek.bind PairOperator.ofChar? with _ | op
  · refine .failAt rfl rfl ?_
    split
    · rfl
    · exact (DosText.back_charEnd hc).resolve_right hreturn
  · obtain ⟨x, hpeek, -⟩ := Option.bind_eq_some_iff.mp hoperator
    have hx : x ≠ '\r' := fun heq => hreturn (heq ▸ hpeek)
    dsimp only
    rw [mirrors_take_one_bind hc hpeek hx]
    exact .pure op (hc.trans (Cursor.le_advance_of_peek hpeek))

section Values

variable {value value' : Parser NbtValue}
  (hvalue : ∀ c, t.start ≤ c → c.peek ≠ some '\r' → Mirrors t s c value value')

include hvalue

/-- Pairs are read in lockstep if their values are. -/
theorem pair_mirrors (hc : t.start ≤ c) (hreturn : c.peek ≠ some '\r') :
    Mirrors t s c (pair value) (pair value') := by
  rw [pair, pair, mirrors_here_bind]
  refine (key_mirrors hc hreturn).bind fun key d hd => ?_
  rw [mirrors_skipTrivia_bind hd]
  refine (operator_mirrors (hd.trans d.le_skipTrivia) (DosText.peek_skipTrivia d)).bind
    fun operator d hd => ?_
  rw [mirrors_skipTrivia_bind hd]
  refine (hvalue _ (hd.trans d.le_skipTrivia) (DosText.peek_skipTrivia d)).bind
    fun inner d hd => ?_
  refine (Mirrors.spanFrom rfl hd).bind fun place d hd => ?_
  exact .pure (⟨key, operator, inner, place⟩ : NbtPair) hd

/-- Lists are read in lockstep if their values are. -/
theorem listOf_mirrors (hpeek : c.peek = some '[') (hc : t.start ≤ c) :
    Mirrors t s c (listOf value) (listOf value') := by
  have hnext := hc.trans (Cursor.le_advance_of_peek hpeek)
  have hcontent := hnext.trans (Cursor.le_skipTrivia _)
  have hreturn := DosText.peek_skipTrivia (c.advance 1)
  have hpair : Scan.startsPair (t.back (c.advance 1).skipTrivia).rest =
      Scan.startsPair (c.advance 1).skipTrivia.rest :=
    Scan.startsPair_unix (DosText.paired_rest hcontent)
  rw [listOf, listOf, mirrors_here_bind, mirrors_take_one_bind hc hpeek (by decide),
    mirrors_skipTrivia_bind hnext, mirrors_here_bind, DosText.back_peek hcontent hreturn]
  dsimp only
  split
  · rename_i hclose
    have hpeek' := beq_iff_eq.mp hclose
    rw [mirrors_take_one_bind hcontent hpeek' (by decide)]
    refine (Mirrors.spanFrom rfl (hcontent.trans
      (Cursor.le_advance_of_peek hpeek'))).bind fun place d hd => ?_
    exact .pure (⟨.values [], place⟩ : NbtList) hd
  · refine (expectContent_mirrors hc (.inl hpeek) hcontent hreturn).bind_of
      fun _ _ d hrun hd => ?_
    obtain rfl := expectContent_stop hrun
    have hlist : ∀ (items : NbtItems) d, t.start ≤ d →
        Mirrors t s d (do return (⟨items, ← spanFrom c.offset⟩ : NbtList))
          (do return ⟨retell t.retelling items, ← spanFrom (t.back c).offset⟩) :=
      fun items d hd => (Mirrors.spanFrom rfl hd).bind fun place d hd =>
        .pure (⟨items, place⟩ : NbtList) hd
    rw [hpair]
    split
    · exact ((elements_mirrors hc (.inl hpeek) (fun _ => pair_mirrors hvalue) hd hreturn).map
        fun pairs => congrArg NbtItems.pairs (NbtPair.allRetold_eq _ pairs).symm).bind hlist
    · exact ((elements_mirrors hc (.inl hpeek) hvalue hd hreturn).map fun values =>
        congrArg NbtItems.values (NbtValue.allRetold_eq _ values).symm).bind hlist

/-- Compounds are read in lockstep if their values are. -/
theorem compoundOf_mirrors (hpeek : c.peek = some '{') (hc : t.start ≤ c) :
    Mirrors t s c (compoundOf value) (compoundOf value') := by
  have hnext := hc.trans (Cursor.le_advance_of_peek hpeek)
  have hcontent := hnext.trans (Cursor.le_skipTrivia _)
  have hreturn := DosText.peek_skipTrivia (c.advance 1)
  rw [compoundOf, compoundOf, mirrors_here_bind, mirrors_take_one_bind hc hpeek (by decide),
    mirrors_skipTrivia_bind hnext, mirrors_here_bind, DosText.back_peek hcontent hreturn]
  split
  · rename_i hclose
    exact .failAt rfl rfl
      (DosText.place_succ hcontent (beq_iff_eq.mp hclose) (by decide) rfl).symm
  · refine (expectContent_mirrors hc (.inr hpeek) hcontent hreturn).bind_of
      fun _ _ d hrun hd => ?_
    obtain rfl := expectContent_stop hrun
    refine (elements_mirrors hc (.inr hpeek) (fun _ => pair_mirrors hvalue) hd hreturn).bind
      fun pairs d hd => (Mirrors.spanFrom rfl hd).bind fun place d hd => ?_
    rw [← NbtPair.allRetold_eq]
    exact .pure (⟨pairs, place⟩ : NbtCompound) hd

end Values

/-! ### Values -/

/-- A resource location is found in both texts or in neither, with the same lengths. -/
theorem back_location (hc : t.start ≤ c) :
    ((Scan.resourceNamespace (t.back c).rest).bind fun space =>
      (Scan.path ((t.back c).rest.drop (space + 1))).map fun path => (space, path)) =
      (Scan.resourceNamespace c.rest).bind fun space =>
        (Scan.path (c.rest.drop (space + 1))).map fun path => (space, path) := by
  have hpaired := DosText.paired_rest hc
  have hspace : Scan.resourceNamespace (t.back c).rest = Scan.resourceNamespace c.rest :=
    Scan.resourceNamespace_unix hpaired
  rw [hspace]
  refine Option.bind_congr fun space hspace => ?_
  have hpath : Scan.path ((t.back c).rest.drop (space + 1)) =
      Scan.path (c.rest.drop (space + 1)) :=
    Scan.path_drop_unix hpaired hspace
  rw [hpath]

/-- Values that hold no others are read in lockstep. -/
theorem scalar_mirrors (hc : t.start ≤ c) (hreturn : c.peek ≠ some '\r') :
    Mirrors t s c scalar scalar := by
  have hpaired := DosText.paired_rest hc
  have hnumber : Scan.wholeNumber (t.back c).rest = Scan.wholeNumber c.rest :=
    Scan.wholeNumber_unix hpaired
  have hword : Scan.word (t.back c).rest = Scan.word c.rest := Scan.word_unix hpaired
  rw [scalar, mirrors_here_bind]
  dsimp only
  rw [back_location hc, hnumber, hword]
  split
  · rename_i space path _ hlocation
    obtain ⟨hspace, hpath⟩ := location_eq_some hlocation
    exact (resourceLocation_mirrors hc hspace hpath).bind fun location d hd =>
      .pure (NbtValue.resource location) hd
  · rename_i n suffix _ _ hnumber
    exact (number_mirrors hc hnumber).bind fun number d hd => .pure (NbtValue.number number) hd
  · rename_i n _ _ hword
    have hfree : ReturnFree c.rest n := (Scan.taken_word hword).returnFree (by decide)
    have hsame : Text.toUnix (c.bareString n).value = (c.bareString n).value :=
      DosText.toUnix_textBetween hfree
    refine (bareString_mirrors hc hfree).bind_of fun word _ d hrun hd => ?_
    rw [bareString_run hfree.le_length] at hrun
    cases hrun
    have hvalue : (retell t.retelling (c.bareString n)).value = (c.bareString n).value := hsame
    rw [hvalue]
    split
    · exact .pure (NbtValue.boolean ⟨true, (c.bareString n).span⟩) hd
    · exact .pure (NbtValue.boolean ⟨false, (c.bareString n).span⟩) hd
    · exact .pure (NbtValue.string (c.bareString n)) hd
  · exact unexpected_mirrors hc fun hpeek => absurd hpeek hreturn

/-- Values are read in lockstep if lists and compounds are. -/
theorem valueOf_mirrors {list list' : Parser NbtList} {compound compound' : Parser NbtCompound}
    (hlist : c.peek = some '[' → Mirrors t s c list list')
    (hcompound : c.peek = some '{' → Mirrors t s c compound compound') (hc : t.start ≤ c)
    (hreturn : c.peek ≠ some '\r') :
    Mirrors t s c (valueOf list compound) (valueOf list' compound') := by
  have hinterpolated : Scan.startsInterpolated false (t.back c).rest =
      Scan.startsInterpolated false c.rest :=
    Scan.startsInterpolated_unix (DosText.paired_rest hc)
  have hquoted : Scan.startsQuoted c.rest →
      Mirrors t s c (quotedString >>= fun literal => Pure.pure (NbtValue.string literal))
        (quotedString >>= fun literal => Pure.pure (NbtValue.string literal)) :=
    fun hquote => (quotedString_mirrors hc hquote).bind fun literal d hd =>
      .pure (NbtValue.string literal) hd
  rw [valueOf, valueOf, mirrors_here_bind, hinterpolated, DosText.back_peek hc hreturn]
  split
  · exact (interpolated_mirrors hc).bind fun argument d hd =>
      .pure (NbtValue.interpolated argument) hd
  · split
    · rename_i hpeek
      exact hquoted (startsQuoted_of_peek hpeek (.inl rfl))
    · rename_i hpeek
      exact hquoted (startsQuoted_of_peek hpeek (.inr rfl))
    · rename_i hpeek
      exact orPlaceholder_mirrors (fun _ => rfl) hc (Cursor.ne_nil_of_peek hpeek) hreturn
        ((hlist hpeek).map fun _ => rfl)
    · rename_i hpeek
      exact orPlaceholder_mirrors (fun _ => rfl) hc (Cursor.ne_nil_of_peek hpeek) hreturn
        ((hcompound hpeek).map fun _ => rfl)
    iterate 5 exact .fail ⟨.missingValue, .empty c.offset⟩
    · exact scalar_mirrors hc hreturn

/-- A container that is nested too deep is cut off at the same place in both texts. -/
theorem containerTooDeep_mirrors {α : Type} [Retell α] (hc : t.start ≤ c)
    (hreturn : c.peek ≠ some '\r') :
    Mirrors t s c (containerTooDeep : Parser α) containerTooDeep := by
  rw [containerTooDeep, mirrors_here_bind]
  exact tooDeep_mirrors hc hreturn

/-- Values are read in lockstep, whatever room for nesting is left. -/
theorem value_mirrors (room : Nat) (hc : t.start ≤ c) (hreturn : c.peek ≠ some '\r') :
    Mirrors t s c (value room) (value room) := by
  induction room generalizing c with
  | zero =>
      rw [value_zero]
      exact valueOf_mirrors (fun _ => containerTooDeep_mirrors hc hreturn)
        (fun _ => containerTooDeep_mirrors hc hreturn) hc hreturn
  | succ room ih =>
      rw [value_succ]
      exact valueOf_mirrors (fun hpeek => listOf_mirrors (fun _ => ih) hpeek hc)
        (fun hpeek => compoundOf_mirrors (fun _ => ih) hpeek hc) hc hreturn

/-- Lists are read in lockstep, whatever room for nesting is left. -/
theorem list_mirrors (room : Nat) (hpeek : c.peek = some '[') (hc : t.start ≤ c) :
    Mirrors t s c (list room) (list room) := by
  cases room with
  | zero => exact containerTooDeep_mirrors hc (by simp [hpeek])
  | succ room => exact listOf_mirrors (fun _ => value_mirrors room) hpeek hc

/-- Compounds are read in lockstep, whatever room for nesting is left. -/
theorem compound_mirrors (room : Nat) (hpeek : c.peek = some '{') (hc : t.start ≤ c) :
    Mirrors t s c (compound room) (compound room) := by
  cases room with
  | zero => exact containerTooDeep_mirrors hc (by simp [hpeek])
  | succ room => exact compoundOf_mirrors (fun _ => value_mirrors room) hpeek hc

/-! ### Paths -/

/-- The suffixes of a key are read in lockstep. -/
theorem suffixes_mirrors {room fuel fuel' : Nat} (hc : t.start ≤ c) :
    Mirrors t s c (suffixes (containers room) fuel) (suffixes (containers room) fuel') := by
  induction fuel generalizing c fuel' with
  | zero => exact .breakOff _
  | succ fuel ih =>
      rcases fuel' with _ | fuel'
      · exact .breakOffUnix _
      · rw [suffixes, suffixes, mirrors_here_bind]
        rcases DosText.back_peek_cases hc with hsame | ⟨hreturn, hnewline⟩
        · rw [hsame]
          split
          · rename_i hpeek
            refine (list_mirrors room hpeek hc).bind fun index d hd => ?_
            exact (ih hd).bind fun more d hd => .pure (PathSuffix.index index :: more) hd
          · rename_i hpeek
            refine (compound_mirrors room hpeek hc).bind fun filter d hd => ?_
            exact (ih hd).bind fun more d hd => .pure (PathSuffix.filter filter :: more) hd
          · exact .pure [] hc
        · rw [hreturn, hnewline]
          exact .pure [] hc

/-- The name of a segment may be missing at a return. -/
theorem segmentName_mirrors (hc : t.start ≤ c) : Mirrors t s c segmentName segmentName := by
  have hpaired := DosText.paired_rest hc
  have hinterpolated : Scan.startsInterpolated true (t.back c).rest =
      Scan.startsInterpolated true c.rest := Scan.startsInterpolated_unix hpaired
  have hquoted : Scan.startsQuoted (t.back c).rest = Scan.startsQuoted c.rest :=
    Scan.startsQuoted_unix hpaired
  have hword : Scan.word (t.back c).rest = Scan.word c.rest := Scan.word_unix hpaired
  rw [segmentName, mirrors_here_bind, hinterpolated, hquoted, hword]
  split
  · rename_i hname
    refine key_mirrors hc fun hpeek => ?_
    obtain ⟨tail, hrest⟩ := List.head?_eq_some_iff.mp hpeek
    rw [hrest] at hname
    cases hname
  · exact unexpected_mirrors hc fun _ => rfl

/-- A retold key starts at the place of its start. -/
theorem start_retell_key (name : NbtKey) :
    (retell t.retelling name).span.start = t.place name.span.start := by
  rw [NbtKey.span_retell]
  rfl

/-- The segments of a path are read in lockstep. -/
theorem segments_mirrors {room fuel fuel' : Nat} {name : NbtKey} (hc : t.start ≤ c) :
    Mirrors t s c (segments (containers room) fuel name)
      (segments (containers room) fuel' (retell t.retelling name)) := by
  induction fuel generalizing c fuel' name with
  | zero => exact .breakOff _
  | succ fuel ih =>
      rcases fuel' with _ | fuel'
      · exact .breakOffUnix _
      · rw [segments, segments, mirrors_here_bind]
        refine (suffixes_mirrors hc).bind fun suffixes d hd => ?_
        refine (Mirrors.spanFrom (start_retell_key name) hd).bind fun place d hd => ?_
        rw [mirrors_here_bind, DosText.back_peek_beq hd (by decide) (by decide)]
        split
        · rename_i hpoint
          have hpeek := beq_iff_eq.mp hpoint
          rw [mirrors_take_one_bind hd hpeek (by decide)]
          have hnext := hd.trans (Cursor.le_advance_of_peek hpeek)
          refine (segmentName_mirrors hnext).bind fun next d hd => ?_
          exact (ih hd).bind fun more d hd =>
            .pure ((⟨name, suffixes, place⟩ : PathSegment) :: more) hd
        · exact .pure [(⟨name, suffixes, place⟩ : PathSegment)] hd

/-- A path behind its first key is read in lockstep. -/
theorem pathFrom_mirrors {room : Nat} {name : NbtKey} (hc : t.start ≤ c) :
    Mirrors t s c (pathFrom (containers room) name)
      (pathFrom (containers room) (retell t.retelling name)) := by
  rw [pathFrom, pathFrom, mirrors_here_bind]
  refine (segments_mirrors hc).bind fun segments d hd => ?_
  exact (Mirrors.spanFrom (start_retell_key name) hd).bind fun place d hd =>
    .pure (⟨segments, place⟩ : NbtPath) hd

end Mcfunction.Parser
