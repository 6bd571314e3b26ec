import Mcfunction.Proofs.Lines.Leaf
import Mcfunction.Proofs.Parser.Container

/-!
# Containers in Longer Texts

An unclosed container ends with its line, in the longer text as in the text alone.

## Main results

* `value_copies`, `list_copies`, `compound_copies`: values and containers, with any number of
  levels left.
* `pathFrom_copies`: paths.
-/

namespace Mcfunction.Parser

variable {e : Embedding} {s : Settings} {c d opener : Cursor} {bracket : Bracket}

/-! ### Inside a container -/

/-- A container that is not closed is reported at its bracket in both texts. -/
theorem unclosed_copies {α : Type} [Shift α] :
    Copies e s c (unclosed bracket opener : Parser α) (unclosed bracket (e.place opener)) := by
  have htake : ∀ n, (e.place opener).rest.take (opener.rest.length - n) =
      opener.rest.take (opener.rest.length - n) :=
    fun n => Scan.take_append (Nat.sub_le _ n)
  rw [unclosed, unclosed, copies_here_bind, Embedding.place_length_sub]
  dsimp only
  rw [htake]
  refine .failAt rfl ?_
  simp only [Embedding.place]
  omega

/-- Both texts find content behind the opening bracket, or neither does. -/
theorem expectContent_copies (hc : e.start ≤ c) :
    Copies e s c (expectContent bracket opener) (expectContent bracket (e.place opener)) := by
  rw [expectContent, expectContent, copies_here_bind, Embedding.place_atLineEnd hc]
  split
  · exact unclosed_copies
  · exact .pure () hc

/-- Whether a character stands here that is no line break. -/
theorem place_peek_beq {x : Char} (hx : x ≠ '\n') :
    ((e.place c).peek == some x) = (c.peek == some x) := by
  rw [Bool.eq_iff_iff, beq_iff_eq, beq_iff_eq, Embedding.place_peek_eq_some hx]

/-- Separators are copied. -/
theorem separator_copies (hc : e.start ≤ c) :
    Copies e s c (separator bracket opener) (separator bracket (e.place opener)) := by
  have hstart := hc.trans c.le_skipTrivia
  rw [separator, separator, copies_skipTrivia_bind hc, copies_here_bind]
  rcases Embedding.place_peek_cases e c.skipTrivia with hsame | ⟨hnone, hnewline⟩
  · rw [hsame]
    rcases hpeek : c.skipTrivia.peek with _ | x
    · exact unclosed_copies
    · have hone : 1 ≤ c.skipTrivia.rest.length := Cursor.length_pos_of_peek hpeek
      have hnext := hstart.trans (Cursor.le_advance hone)
      dsimp only
      split
      · rw [copies_take_bind hone, copies_skipTrivia_bind hnext, copies_here_bind,
          place_peek_beq bracket.closer_ne_newline]
        split
        · refine .failAt rfl ?_
          simp only [Embedding.place]
          omega
        · exact (expectContent_copies (hnext.trans (Cursor.le_skipTrivia _))).bind fun _ d hd =>
            .pure false hd
      · split
        · rw [copies_take_bind hone]
          exact .pure true hnext
        · split
          · exact unclosed_copies
          · exact .failAt rfl (Embedding.place_charEnd (Cursor.ne_nil_of_peek hpeek))
  · have hclose : ('\n' == bracket.closer) = false := by
      simpa using bracket.closer_ne_newline.symm
    rw [hnone, hnewline]
    simp only [hclose, Char.reduceBEq, Bool.false_eq_true, if_false, Bool.true_or, if_true]
    exact unclosed_copies

/-- More fuel than the container needs changes nothing. -/
theorem elements_copies {α : Type} [Shift α] {element element' : Parser α} {fuel fuel' : Nat}
    (helement : ∀ c, e.start ≤ c → Copies e s c element element') (hc : e.start ≤ c)
    (hfuel : fuel ≤ fuel') :
    Copies e s c (elements element bracket opener fuel)
      (elements element' bracket (e.place opener) fuel') := by
  induction fuel generalizing c fuel' with
  | zero => exact .breakOff _
  | succ fuel ih =>
      obtain ⟨fuel', rfl⟩ : ∃ k, fuel' = k + 1 := ⟨fuel' - 1, by omega⟩
      rw [elements, elements]
      refine (helement c hc).bind fun first d hd => ?_
      refine (separator_copies hd).bind fun closed d' hd' => ?_
      cases closed with
      | true => exact .pure [first] hd'
      | false =>
          exact (ih hd' (by omega)).bind fun more d hd => .pure (first :: more) hd

/-! ### Keys and pairs -/

/-- Keys are copied. -/
theorem key_copies (hc : e.start ≤ c) : Copies e s c key key := by
  have hends := Embedding.ends_of_le hc
  have hinterpolated : Scan.startsInterpolated true (e.place c).rest =
      Scan.startsInterpolated true c.rest := Scan.startsInterpolated_append hends
  have hquoted : Scan.startsQuoted (e.place c).rest = Scan.startsQuoted c.rest :=
    Scan.startsQuoted_append hends
  have hword : Scan.word (e.place c).rest = Scan.word c.rest := Scan.word_append hends
  rw [key, copies_here_bind, hinterpolated, hquoted, hword]
  split
  · exact (interpolated_copies hc).bind fun argument d hd =>
      .pure (NbtKey.interpolated argument) hd
  · split
    · rename_i hquote
      exact (quotedString_copies hc hquote).bind fun literal d hd =>
        .pure (NbtKey.plain literal) hd
    · rcases hscan : Scan.word c.rest with _ | n
      · exact unexpected_copies hc
      · exact (bareString_copies hc (Scan.inline_word hscan).le_length).bind fun literal d hd =>
          .pure (NbtKey.plain literal) hd

/-- The sign between a key and its value is copied. -/
theorem operator_copies (hc : e.start ≤ c) : Copies e s c operator operator := by
  have hsame : (e.place c).peek.bind PairOperator.ofChar? = c.peek.bind PairOperator.ofChar? :=
    Embedding.place_peek_bind rfl
  rw [operator, copies_here_bind, hsame, Embedding.place_atLineEnd hc]
  rcases hoperator : c.peek.bind PairOperator.ofChar? with _ | op
  · refine .failAt rfl ?_
    split
    · rfl
    · rename_i hline
      exact Embedding.place_charEnd (ne_nil_of_not_atLineEnd (by simpa using hline))
  · obtain ⟨x, hpeek, -⟩ := Option.bind_eq_some_iff.mp hoperator
    have hone : 1 ≤ c.rest.length := Cursor.length_pos_of_peek hpeek
    dsimp only
    rw [copies_take_bind hone]
    exact .pure op (hc.trans (Cursor.le_advance hone))

section Values

variable {value value' : Parser NbtValue}
  (hvalue : ∀ c, e.start ≤ c → Copies e s c value value')

include hvalue

/-- Pairs are copied if their values are. -/
theorem pair_copies (hc : e.start ≤ c) : Copies e s c (pair value) (pair value') := by
  rw [pair, pair, copies_here_bind]
  refine (key_copies hc).bind fun key d hd => ?_
  rw [copies_skipTrivia_bind hd]
  refine (operator_copies (hd.trans d.le_skipTrivia)).bind fun operator d hd => ?_
  rw [copies_skipTrivia_bind hd]
  refine (hvalue _ (hd.trans d.le_skipTrivia)).bind fun inner d hd => ?_
  refine (Copies.spanFrom rfl hd).bind fun place d hd => ?_
  exact .pure (⟨key, operator, inner, place⟩ : NbtPair) hd

/-- Lists are copied if their values are. -/
theorem listOf_copies (hpeek : c.peek = some '[') (hc : e.start ≤ c) :
    Copies e s c (listOf value) (listOf value') := by
  obtain ⟨rest, hrest⟩ := List.head?_eq_some_iff.mp hpeek
  have hone : 1 ≤ c.rest.length := by simp [hrest]
  have hnext := hc.trans (Cursor.le_advance hone)
  have hcontent := hnext.trans (Cursor.le_skipTrivia _)
  have hpair : Scan.startsPair (e.place (c.advance 1).skipTrivia).rest =
      Scan.startsPair (c.advance 1).skipTrivia.rest :=
    Scan.startsPair_append (Embedding.ends_of_le hcontent)
  rw [listOf, listOf, copies_here_bind, copies_take_bind hone, copies_skipTrivia_bind hnext,
    copies_here_bind, place_peek_beq (by decide)]
  dsimp only
  split
  · rename_i hclose
    obtain ⟨rest, hrest⟩ := List.head?_eq_some_iff.mp (beq_iff_eq.mp hclose)
    have hone : 1 ≤ (c.advance 1).skipTrivia.rest.length := by simp [hrest]
    rw [copies_take_bind hone]
    refine (Copies.spanFrom rfl (hcontent.trans (Cursor.le_advance hone))).bind fun place d hd => ?_
    exact .pure (⟨.values [], place⟩ : NbtList) hd
  · refine (expectContent_copies hcontent).bind fun _ d hd => ?_
    have hfuel := Nat.succ_le_succ
      (Embedding.length_le_place (e := e) (c.advance 1).skipTrivia)
    rw [hpair]
    have hlist : ∀ (items : NbtItems) d, e.start ≤ d →
        Copies e s d (do return (⟨items, ← spanFrom c.offset⟩ : NbtList))
          (do return ⟨shift e.bytes items, ← spanFrom (e.place c).offset⟩) :=
      fun items d hd => (Copies.spanFrom rfl hd).bind fun place d hd =>
        .pure (⟨items, place⟩ : NbtList) hd
    split
    · exact ((elements_copies (fun _ hc => pair_copies hvalue hc) hd hfuel).map fun pairs =>
        congrArg NbtItems.pairs (NbtPair.allShifted_eq e.bytes pairs).symm).bind hlist
    · exact ((elements_copies hvalue hd hfuel).map fun values =>
        congrArg NbtItems.values (NbtValue.allShifted_eq e.bytes values).symm).bind hlist

/-- Compounds are copied if their values are. -/
theorem compoundOf_copies (hpeek : c.peek = some '{') (hc : e.start ≤ c) :
    Copies e s c (compoundOf value) (compoundOf value') := by
  have hone : 1 ≤ c.rest.length := Cursor.length_pos_of_peek hpeek
  have hnext := hc.trans (Cursor.le_advance hone)
  have hcontent := hnext.trans (Cursor.le_skipTrivia _)
  have hfuel := Nat.succ_le_succ
    (Embedding.length_le_place (e := e) (c.advance 1).skipTrivia)
  rw [compoundOf, compoundOf, copies_here_bind, copies_take_bind hone,
    copies_skipTrivia_bind hnext, copies_here_bind, place_peek_beq (by decide)]
  split
  · refine .failAt rfl ?_
    simp only [Embedding.place]
    omega
  · refine (expectContent_copies hcontent).bind fun _ d hd => ?_
    refine (elements_copies (fun _ hc => pair_copies hvalue hc) hd hfuel).bind
      fun pairs d hd => (Copies.spanFrom rfl hd).bind fun place d hd => ?_
    rw [← NbtPair.allShifted_eq]
    exact .pure (⟨pairs, place⟩ : NbtCompound) hd

end Values

/-! ### Values -/

/-- A resource location is found in both texts or in neither, with the same lengths. -/
theorem place_location (hc : e.start ≤ c) :
    ((Scan.resourceNamespace (e.place c).rest).bind fun space =>
      (Scan.path ((e.place c).rest.drop (space + 1))).map fun path => (space, path)) =
      (Scan.resourceNamespace c.rest).bind fun space =>
        (Scan.path (c.rest.drop (space + 1))).map fun path => (space, path) := by
  have hends := Embedding.ends_of_le hc
  have hspace : Scan.resourceNamespace (e.place c).rest = Scan.resourceNamespace c.rest :=
    Scan.resourceNamespace_append hends
  rw [hspace]
  refine Option.bind_congr fun space hspace => ?_
  have hpath : Scan.path ((e.place c).rest.drop (space + 1)) =
      Scan.path (c.rest.drop (space + 1)) :=
    Scan.path_drop_append hends hspace
  rw [hpath]

/-- Values that hold no others are copied. -/
theorem scalar_copies (hc : e.start ≤ c) : Copies e s c scalar scalar := by
  have hends := Embedding.ends_of_le hc
  have hnumber : Scan.wholeNumber (e.place c).rest = Scan.wholeNumber c.rest :=
    Scan.wholeNumber_append hends
  have hword : Scan.word (e.place c).rest = Scan.word c.rest := Scan.word_append hends
  rw [scalar, copies_here_bind]
  dsimp only
  rw [place_location hc, hnumber, hword]
  split
  · rename_i space path _ hlocation
    obtain ⟨hspace, hpath⟩ := location_eq_some hlocation
    exact (resourceLocation_copies hc hspace hpath).bind fun location d hd =>
      .pure (NbtValue.resource location) hd
  · rename_i n suffix _ _ hnumber
    exact (number_copies hc hnumber).bind fun number d hd => .pure (NbtValue.number number) hd
  · rename_i n _ _ hword
    refine (bareString_copies hc (Scan.inline_word hword).le_length).bind fun word d hd => ?_
    have hvalue : (shift e.bytes word).value = word.value := rfl
    rw [hvalue]
    split
    · exact .pure (NbtValue.boolean ⟨true, word.span⟩) hd
    · exact .pure (NbtValue.boolean ⟨false, word.span⟩) hd
    · exact .pure (NbtValue.string word) hd
  · exact unexpected_copies hc

/-- Values are copied if lists and compounds are. -/
theorem valueOf_copies {list list' : Parser NbtList} {compound compound' : Parser NbtCompound}
    (hlist : c.peek = some '[' → Copies e s c list list')
    (hcompound : c.peek = some '{' → Copies e s c compound compound') (hc : e.start ≤ c) :
    Copies e s c (valueOf list compound) (valueOf list' compound') := by
  have hinterpolated : Scan.startsInterpolated false (e.place c).rest =
      Scan.startsInterpolated false c.rest :=
    Scan.startsInterpolated_append (Embedding.ends_of_le hc)
  rw [valueOf, valueOf, copies_here_bind, hinterpolated]
  split
  · exact (interpolated_copies hc).bind fun argument d hd =>
      .pure (NbtValue.interpolated argument) hd
  · rcases Embedding.place_peek_cases e c with hsame | ⟨hnone, hnewline⟩
    · have hquoted : Scan.startsQuoted c.rest →
          Copies e s c (quotedString >>= fun literal => Pure.pure (NbtValue.string literal))
            (quotedString >>= fun literal => Pure.pure (NbtValue.string literal)) :=
        fun hquote => (quotedString_copies hc hquote).bind fun literal d hd =>
          .pure (NbtValue.string literal) hd
      rw [hsame]
      split
      · rename_i hpeek
        obtain ⟨rest, hrest⟩ := List.head?_eq_some_iff.mp hpeek
        exact hquoted (by rw [hrest]; rfl)
      · rename_i hpeek
        obtain ⟨rest, hrest⟩ := List.head?_eq_some_iff.mp hpeek
        exact hquoted (by rw [hrest]; rfl)
      · rename_i hpeek
        exact orPlaceholder_copies (fun _ => rfl) hc (Cursor.ne_nil_of_peek hpeek)
          ((hlist hpeek).map fun _ => rfl)
      · rename_i hpeek
        exact orPlaceholder_copies (fun _ => rfl) hc (Cursor.ne_nil_of_peek hpeek)
          ((hcompound hpeek).map fun _ => rfl)
      iterate 5 exact .fail ⟨.missingValue, .empty c.offset⟩
      · exact scalar_copies hc
    · rw [hnone, hnewline]
      exact .fail ⟨.missingValue, .empty c.offset⟩

/-- A container that is nested too deep is cut off at the same place in both texts. -/
theorem containerTooDeep_copies {α : Type} [Shift α] (hne : c.rest ≠ []) :
    Copies e s c (containerTooDeep : Parser α) containerTooDeep := by
  rw [containerTooDeep, copies_here_bind]
  exact tooDeep_copies hne

/-- Values are copied, whatever room for nesting is left. -/
theorem value_copies (room : Nat) (hc : e.start ≤ c) :
    Copies e s c (value room) (value room) := by
  induction room generalizing c with
  | zero =>
      rw [value_zero]
      exact valueOf_copies (fun hpeek => containerTooDeep_copies (Cursor.ne_nil_of_peek hpeek))
        (fun hpeek => containerTooDeep_copies (Cursor.ne_nil_of_peek hpeek)) hc
  | succ room ih =>
      rw [value_succ]
      exact valueOf_copies (fun hpeek => listOf_copies (fun _ => ih) hpeek hc)
        (fun hpeek => compoundOf_copies (fun _ => ih) hpeek hc) hc

/-- Lists are copied, whatever room for nesting is left. -/
theorem list_copies (room : Nat) (hpeek : c.peek = some '[') (hc : e.start ≤ c) :
    Copies e s c (list room) (list room) := by
  cases room with
  | zero => exact containerTooDeep_copies (Cursor.ne_nil_of_peek hpeek)
  | succ room => exact listOf_copies (fun _ => value_copies room) hpeek hc

/-- Compounds are copied, whatever room for nesting is left. -/
theorem compound_copies (room : Nat) (hpeek : c.peek = some '{') (hc : e.start ≤ c) :
    Copies e s c (compound room) (compound room) := by
  cases room with
  | zero => exact containerTooDeep_copies (Cursor.ne_nil_of_peek hpeek)
  | succ room => exact compoundOf_copies (fun _ => value_copies room) hpeek hc

/-! ### Paths -/

/-- The suffixes of a key are copied, with no less fuel in the longer text. -/
theorem suffixes_copies {room fuel fuel' : Nat} (hc : e.start ≤ c) (hfuel : fuel ≤ fuel') :
    Copies e s c (suffixes (containers room) fuel) (suffixes (containers room) fuel') := by
  induction fuel generalizing c fuel' with
  | zero => exact .breakOff _
  | succ fuel ih =>
      obtain ⟨fuel', rfl⟩ : ∃ k, fuel' = k + 1 := ⟨fuel' - 1, by omega⟩
      rw [suffixes, suffixes, copies_here_bind]
      rcases Embedding.place_peek_cases e c with hsame | ⟨hnone, hnewline⟩
      · rw [hsame]
        split
        · rename_i hpeek
          refine (list_copies room hpeek hc).bind fun index d hd => ?_
          exact (ih hd (by omega)).bind fun more d hd => .pure (PathSuffix.index index :: more) hd
        · rename_i hpeek
          refine (compound_copies room hpeek hc).bind fun filter d hd => ?_
          exact (ih hd (by omega)).bind fun more d hd => .pure (PathSuffix.filter filter :: more) hd
        · exact .pure [] hc
      · rw [hnone, hnewline]
        exact .pure [] hc

/-- Names of segments are copied. -/
theorem segmentName_copies (hc : e.start ≤ c) : Copies e s c segmentName segmentName := by
  have hends := Embedding.ends_of_le hc
  have hinterpolated : Scan.startsInterpolated true (e.place c).rest =
      Scan.startsInterpolated true c.rest := Scan.startsInterpolated_append hends
  have hquoted : Scan.startsQuoted (e.place c).rest = Scan.startsQuoted c.rest :=
    Scan.startsQuoted_append hends
  have hword : Scan.word (e.place c).rest = Scan.word c.rest := Scan.word_append hends
  rw [segmentName, copies_here_bind, hinterpolated, hquoted, hword]
  split
  · exact key_copies hc
  · exact unexpected_copies hc

/-- The segments of a path are copied, with no less fuel in the longer text. -/
theorem segments_copies {room fuel fuel' : Nat} {name : NbtKey} (hc : e.start ≤ c)
    (hfuel : fuel ≤ fuel') :
    Copies e s c (segments (containers room) fuel name)
      (segments (containers room) fuel' (shift e.bytes name)) := by
  induction fuel generalizing c fuel' name with
  | zero => exact .breakOff _
  | succ fuel ih =>
      obtain ⟨fuel', rfl⟩ : ∃ k, fuel' = k + 1 := ⟨fuel' - 1, by omega⟩
      have hstart : (shift e.bytes name).span.start = name.span.start + e.bytes := by
        rw [NbtKey.span_shift]
        rfl
      rw [segments, segments, copies_here_bind]
      refine (suffixes_copies hc (Nat.succ_le_succ (Embedding.length_le_place c))).bind
        fun suffixes d hd => ?_
      refine (Copies.spanFrom hstart hd).bind fun place d hd => ?_
      rw [copies_here_bind, place_peek_beq (by decide)]
      split
      · rename_i hpoint
        obtain ⟨rest, hrest⟩ := List.head?_eq_some_iff.mp (beq_iff_eq.mp hpoint)
        have hone : 1 ≤ d.rest.length := by simp [hrest]
        rw [copies_take_bind hone]
        refine (segmentName_copies (hd.trans (Cursor.le_advance hone))).bind fun next d hd => ?_
        exact (ih hd (by omega)).bind fun more d hd =>
          .pure ((⟨name, suffixes, place⟩ : PathSegment) :: more) hd
      · exact .pure [(⟨name, suffixes, place⟩ : PathSegment)] hd

/-- A path behind its first key is copied. -/
theorem pathFrom_copies {room : Nat} {name : NbtKey} (hc : e.start ≤ c) :
    Copies e s c (pathFrom (containers room) name)
      (pathFrom (containers room) (shift e.bytes name)) := by
  have hstart : (shift e.bytes name).span.start = name.span.start + e.bytes := by
    rw [NbtKey.span_shift]
    rfl
  rw [pathFrom, pathFrom, copies_here_bind]
  refine (segments_copies hc (Nat.succ_le_succ (Embedding.length_le_place c))).bind
    fun segments d hd => ?_
  exact (Copies.spanFrom hstart hd).bind fun place d hd =>
    .pure (⟨segments, place⟩ : NbtPath) hd

end Mcfunction.Parser
