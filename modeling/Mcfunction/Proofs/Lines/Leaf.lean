import Mcfunction.Proofs.Lines.Embedding
import Mcfunction.Proofs.Parser.Leaf

/-!
# Leaves in Longer Texts

Recovery and the parsers of leaves do the same in a longer text.

## Main results

* `orPlaceholder_copies`: recovery skips the same text.
* `interpolated_copies`, `coordinates_copies`, `quotedString_copies`: the leaves.
-/

namespace Mcfunction

variable {e : Embedding} {s : Settings} {c d : Cursor} {n : Nat}

namespace Parser

/-! ### Recovery -/

/-- Recovery resumes at corresponding offsets after corresponding errors. -/
theorem place_skipEnd {error : ParseError} (hc : e.start ≤ c) (hne : c.rest ≠ []) :
    skipEnd (e.place c) (shift e.bytes error) = skipEnd c error + e.bytes := by
  have hends := Embedding.ends_of_le hc
  have hchunk : (e.place c).offsetAfter (Scan.balancedChunk [] 0 (e.place c).rest) =
      c.offsetAfter (Scan.balancedChunk [] 0 c.rest) + e.bytes := by
    simp only [Embedding.place, Scan.balancedChunk_append (Nat.zero_le _) hends]
    exact Embedding.place_offsetAfter
      ((Scan.balancedChunk_le_statement _).trans (Scan.statement_le_length _))
  have hstop : (shift e.bytes error).span.stop = error.span.stop + e.bytes := rfl
  have hoffset : (e.place c).offset = c.offset + e.bytes := rfl
  simp only [skipEnd, Embedding.place_statementEnd hc, hchunk, hstop, hoffset,
    Embedding.place_charEnd hne]
  split_ifs <;> omega

/-- Recovery is copied where text is left. -/
theorem recover_copies {error : ParseError} (hc : e.start ≤ c) (hne : c.rest ≠ []) :
    Copies e s c (recover error) (recover (shift e.bytes error)) := by
  rw [recover, recover, copies_here_bind, place_skipEnd hc hne]
  refine (Copies.span rfl rfl hc).bind fun skipped d hd => ?_
  refine .log_bind rfl (.goTo_bind rfl fun d' hd' => ?_)
  exact .pure (⟨error.message, skipped⟩ : ErrorNode) (hd.trans hd')

/-- A parser that leaves a placeholder on errors is copied if the parser is. -/
theorem orPlaceholder_copies {α : Type} [Shift α] {p p' : Parser α} {placeholder : ErrorNode → α}
    (hplaceholder : ∀ node, placeholder (shift e.bytes node) = shift e.bytes (placeholder node))
    (hc : e.start ≤ c) (hne : c.rest ≠ []) (h : Copies e s c p p') :
    Copies e s c (orPlaceholder p placeholder) (orPlaceholder p' placeholder) := by
  refine h.orElse fun error => ?_
  rw [copies_settings_bind]
  split
  · exact .fail error
  · refine (recover_copies hc hne).bind fun node d hd => ?_
    rw [hplaceholder]
    exact .pure _ hd

/-- A line break is no better a character than the end of the text. -/
theorem unexpected_copies {α : Type} [Shift α] {wanted : Wanted} (hc : e.start ≤ c) :
    Copies e s c (unexpected wanted : Parser α) (unexpected wanted) := by
  rcases hline : Scan.atLineEnd c.rest
  · have hne := ne_nil_of_not_atLineEnd hline
    have hstatement : (e.place c).offsetAfter (Scan.statement (e.place c).rest) =
        c.offsetAfter (Scan.statement c.rest) + e.bytes := Embedding.place_statementEnd hc
    rw [unexpected, copies_here_bind]
    refine .slice_bind rfl (Embedding.place_charEnd hne) fun chars => ?_
    refine .failAt rfl ?_
    rw [hstatement, Embedding.place_charEnd hne]
    simp only [Embedding.place]
    omega
  · exact .of_failed (unexpected_run_atLineEnd hline)
      (unexpected_run_atLineEnd (by rw [Embedding.place_atLineEnd hc, hline]))

/-- The error for nesting too deep is copied. -/
theorem tooDeep_copies {α : Type} [Shift α] {start : Cursor} (hne : start.rest ≠ []) :
    Copies e s c (tooDeep start : Parser α) (tooDeep (e.place start)) := by
  rw [tooDeep, tooDeep, copies_settings_bind]
  exact .failAt rfl (Embedding.place_charEnd hne)

end Parser

/-! ### Leaves -/

namespace Embedding

/-- The node of a run of characters is shifted. -/
theorem place_textRun (h : n ≤ c.rest.length) :
    (e.place c).textRun n = shift e.bytes (c.textRun n) := by
  simp only [Cursor.textRun, place_textBetween h, place_advance h]
  rfl

/-- The node of a bare string is shifted. -/
theorem place_bareString (h : n ≤ c.rest.length) :
    (e.place c).bareString n = shift e.bytes (c.bareString n) := by
  simp only [Cursor.bareString, place_textBetween h, place_advance h]
  rfl

/-- The node of a quoted string is shifted. -/
theorem place_quotedString {q : Scan.Quoted} (h : q.count ≤ c.rest.length) :
    (e.place c).quotedString q = shift e.bytes (c.quotedString q) := by
  have hne : c.rest ≠ [] := List.length_pos_iff.mp (Nat.zero_lt_of_lt h)
  simp only [Cursor.quotedString, place_textBetween (Nat.le_of_succ_le h), place_advance h,
    Parser.quoteAt, place_peek hne]
  rfl

/-- The node of an interpolation is shifted. -/
theorem place_interpolation (h : n ≤ c.rest.length) :
    (e.place c).interpolation n = shift e.bytes (c.interpolation n) := by
  simp only [Cursor.interpolation, place_textBetween ((Nat.sub_le n 1).trans h), place_advance h]
  rfl

/-- The node of a number is shifted. -/
theorem place_number {suffix : Option Char} (h : n ≤ c.rest.length) :
    (e.place c).number n suffix = shift e.bytes (c.number n suffix) := by
  have hlen : (if suffix.isSome then n - 1 else n) ≤ c.rest.length := by
    split <;> omega
  have htake : (c.rest ++ e.tail).take (if suffix.isSome then n - 1 else n) =
      c.rest.take (if suffix.isSome then n - 1 else n) := Scan.take_append hlen
  simp only [Cursor.number, place_textBetween h, place_advance h]
  simp only [place, htake]
  rfl

/-- The node of a resource location is shifted. -/
theorem place_resourceLocation {space path : Nat} (h : space + 1 + path ≤ c.rest.length) :
    (e.place c).resourceLocation space path = shift e.bytes (c.resourceLocation space path) := by
  have hspace : space ≤ c.rest.length := by omega
  simp only [Cursor.resourceLocation, place_textBetween h, place_textBetween hspace,
    place_advance h]
  rfl

/-- What the characters of a coordinate mean does not depend on where they are. -/
theorem coordinatePart_shift (chars : List Char) (span : Span) (bytes : Nat) :
    Parser.coordinatePart chars (shift bytes span) =
      shift bytes (Parser.coordinatePart chars span) := by
  unfold Parser.coordinatePart
  split <;> rfl

/-- The parts of coordinates are shifted. -/
theorem place_coordinatePart {range : Nat × Nat} (hle : range.1 ≤ range.2)
    (h : range.2 ≤ c.rest.length) :
    (e.place c).coordinatePart range = shift e.bytes (c.coordinatePart range) := by
  have hlen : range.2 - range.1 ≤ (c.rest.drop range.1).length := by
    rw [List.length_drop]
    omega
  have hdrop : (c.rest ++ e.tail).drop range.1 = c.rest.drop range.1 ++ e.tail :=
    Scan.drop_append (hle.trans h)
  have htake : (c.rest.drop range.1 ++ e.tail).take (range.2 - range.1) =
      (c.rest.drop range.1).take (range.2 - range.1) := Scan.take_append hlen
  simp only [Cursor.coordinatePart, place_offsetAfter h, place_offsetAfter (hle.trans h)]
  simp only [place, hdrop, htake]
  exact coordinatePart_shift _ ⟨c.offsetAfter range.1, c.offsetAfter range.2⟩ e.bytes

/-- The error of a recognizer lies so many bytes further on. -/
theorem place_error_at {error : Scan.Error} (h : error.stop ≤ c.rest.length) :
    error.at (e.place c) = shift e.bytes (error.at c) := by
  rw [Scan.Error.at, place_offsetAfter h, place_offsetAfter (error.ordered.trans h)]
  rfl

end Embedding

namespace Parser

/-- A run of characters is taken in the longer text too, and its node is shifted. -/
theorem textRun_place_run (h : n ≤ c.rest.length) :
    textRun n s (e.place c) = .done (shift e.bytes (c.textRun n)) [] (e.place (c.advance n)) := by
  rw [textRun_run (h.trans (Embedding.length_le_place c)), Embedding.place_textRun h,
    Embedding.place_advance h]

/-- Runs of characters are copied. -/
theorem textRun_copies (hc : e.start ≤ c) (h : n ≤ c.rest.length) :
    Copies e s c (textRun n) (textRun n) :=
  .of_run (textRun_run h) (textRun_place_run h) (hc.trans (Cursor.le_advance h))

/-- Bare strings are copied. -/
theorem bareString_copies (hc : e.start ≤ c) (h : n ≤ c.rest.length) :
    Copies e s c (bareString n) (bareString n) := by
  refine .of_run (bareString_run h) ?_ (hc.trans (Cursor.le_advance h))
  rw [bareString_run (h.trans (Embedding.length_le_place c)), Embedding.place_bareString h,
    Embedding.place_advance h]

/-- Quoted strings are copied, whether they are closed or not. -/
theorem quotedString_copies (hc : e.start ≤ c) (hquote : Scan.startsQuoted c.rest) :
    Copies e s c quotedString quotedString := by
  have hends := Embedding.ends_of_le hc
  have hquote' : Scan.startsQuoted (e.place c).rest := by
    simpa only [Embedding.place, Scan.startsQuoted_append hends] using hquote
  have hsame : Scan.quoted (e.place c).rest = Scan.quoted c.rest := Scan.quoted_append hends hquote
  rcases hscan : Scan.quoted c.rest with error | q
  · refine .of_failed (quotedString_failed hscan) ?_
    rw [quotedString_failed (hsame.trans hscan),
      Embedding.place_error_at (Scan.quoted_eq_error hquote hscan)]
  · have hlen := (Scan.inline_quoted hquote hscan).le_length
    refine .of_run (quotedString_run hquote hscan) ?_ (hc.trans (Cursor.le_advance hlen))
    rw [quotedString_run hquote' (hsame.trans hscan), Embedding.place_quotedString hlen,
      Embedding.place_advance hlen]

/-- An interpolation without errors is taken in the longer text too, and its node is shifted. -/
theorem interpolation_place_run (hc : e.start ≤ c) (hstart : Scan.startsInterpolation c.rest)
    (h : Scan.interpolation c.rest = .ok n) :
    interpolation s (e.place c) =
      .done (shift e.bytes (c.interpolation n)) [] (e.place (c.advance n)) := by
  have hends := Embedding.ends_of_le hc
  have hlen := (Scan.inline_interpolation hstart h).2.le_length
  have hstart' : Scan.startsInterpolation (e.place c).rest := by
    simpa only [Embedding.place, Scan.startsInterpolation_append hends] using hstart
  have h' : Scan.interpolation (e.place c).rest = .ok n :=
    (Scan.interpolation_append hends hstart).trans h
  rw [interpolation_run hstart' h', Embedding.place_interpolation hlen,
    Embedding.place_advance hlen]

/-- Interpolations are copied, errors included. -/
theorem interpolation_copies (hc : e.start ≤ c) (hstart : Scan.startsInterpolation c.rest) :
    Copies e s c interpolation interpolation := by
  rcases hscan : Scan.interpolation c.rest with error | n
  · have hscan' : Scan.interpolation (e.place c).rest = .error error :=
      (Scan.interpolation_append (Embedding.ends_of_le hc) hstart).trans hscan
    refine .of_failed (interpolation_failed hscan) ?_
    rw [interpolation_failed hscan',
      Embedding.place_error_at (Scan.interpolation_eq_error hstart hscan)]
  · have hlen := (Scan.inline_interpolation hstart hscan).2.le_length
    exact .of_run (interpolation_run hstart hscan) (interpolation_place_run hc hstart hscan)
      (hc.trans (Cursor.le_advance hlen))

/-- Numbers are copied. -/
theorem number_copies {suffix : Option Char} (hc : e.start ≤ c)
    (h : Scan.wholeNumber c.rest = some (n, suffix)) :
    Copies e s c (number n suffix) (number n suffix) := by
  have hsame : Scan.wholeNumber (e.place c).rest = Scan.wholeNumber c.rest :=
    Scan.wholeNumber_append (Embedding.ends_of_le hc)
  have hlen := (Scan.inline_suffixedNumber (Scan.wholeNumber_eq_some h)).le_length
  refine .of_run (number_run h) ?_ (hc.trans (Cursor.le_advance hlen))
  rw [number_run (hsame.trans h), Embedding.place_number hlen, Embedding.place_advance hlen]

/-- Resource locations are copied. -/
theorem resourceLocation_copies {space path : Nat} (hc : e.start ≤ c)
    (hspace : Scan.resourceNamespace c.rest = some space)
    (hpath : Scan.path (c.rest.drop (space + 1)) = some path) :
    Copies e s c (resourceLocation space path) (resourceLocation space path) := by
  have hends := Embedding.ends_of_le hc
  have hlen := (Scan.inline_location hspace hpath).le_length
  have hspace' : Scan.resourceNamespace (e.place c).rest = some space := by
    simpa only [Embedding.place, Scan.resourceNamespace_append hends] using hspace
  have hpath' : Scan.path ((e.place c).rest.drop (space + 1)) = some path := by
    have hcolon : space + 1 ≤ c.rest.length := by omega
    simpa only [Embedding.place, Scan.drop_append hcolon, Scan.path_append (hends.drop _)]
      using hpath
  refine .of_run (resourceLocation_run hspace hpath) ?_ (hc.trans (Cursor.le_advance hlen))
  rw [resourceLocation_run hspace' hpath', Embedding.place_resourceLocation hlen,
    Embedding.place_advance hlen]

/-- Coordinates are copied, up to the error for a triple that is cut short. -/
theorem coordinates_copies (hc : e.start ≤ c) (hne : c.rest ≠ []) :
    Copies e s c coordinates coordinates := by
  have hends := Embedding.ends_of_le hc
  have hsame : Scan.coordinates (e.place c).rest = Scan.coordinates c.rest :=
    Scan.coordinates_append hends
  rcases hscan : Scan.coordinates c.rest with _ | ranges
  · have hrun : Scan.coordinateRun (e.place c).rest = Scan.coordinateRun c.rest :=
      Scan.coordinateRun_append hends hne
    refine .of_failed (coordinates_failed hscan) ?_
    rw [coordinates_failed (hsame.trans hscan), hrun,
      Embedding.place_advance (Scan.coordinateRun_le_length _)]
    rfl
  · obtain ⟨hx, hxy, hy, hyz, hz, hline⟩ := Scan.coordinates_eq_some hscan
    have hlen := hline.le_length
    refine .of_run (coordinates_run hscan) ?_ (hc.trans (Cursor.le_advance hlen))
    rw [coordinates_run (hsame.trans hscan), Embedding.place_advance hlen]
    have hxlen : ranges.x.2 ≤ c.rest.length := by omega
    have hylen : ranges.y.2 ≤ c.rest.length := by omega
    simp only [Cursor.coordinates, Triple.map, Embedding.place_advance hlen,
      Embedding.place_coordinatePart hx.le hxlen, Embedding.place_coordinatePart hy.le hylen,
      Embedding.place_coordinatePart hz.le hlen]
    rfl

/-! ### Interpolated text -/

/-- More fuel than the text needs changes nothing. -/
theorem bareFragments_copies {inKey : Bool} {fuel fuel' : Nat} (hc : e.start ≤ c)
    (hfuel : fuel ≤ fuel') :
    Copies e s c (bareFragments inKey fuel) (bareFragments inKey fuel') := by
  induction fuel generalizing c fuel' with
  | zero => exact .breakOff _
  | succ fuel ih =>
      obtain ⟨fuel', rfl⟩ : ∃ k, fuel' = k + 1 := ⟨fuel' - 1, by omega⟩
      have hends := Embedding.ends_of_le hc
      have hstart : Scan.startsInterpolation (e.place c).rest = Scan.startsInterpolation c.rest :=
        Scan.startsInterpolation_append hends
      have hfragment : Scan.fragment inKey (e.place c).rest = Scan.fragment inKey c.rest :=
        Scan.fragment_append hends
      rw [bareFragments, bareFragments, copies_here_bind, hstart, hfragment]
      split
      · rename_i hopen
        refine (interpolation_copies hc hopen).bind fun piece d hd => ?_
        refine (ih hd (by omega)).bind fun fragments d' hd' => ?_
        exact .pure (Fragment.interpolation piece :: fragments) hd'
      · rcases hscan : Scan.fragment inKey c.rest with _ | n
        · exact .pure [] hc
        · refine (textRun_copies hc (Scan.inline_fragment hscan).le_length).bind fun run d hd => ?_
          refine (ih hd (by omega)).bind fun fragments d' hd' => ?_
          exact .pure (Fragment.literal run :: fragments) hd'

/-- The fragments within quotes are copied, whatever fuel the loops are given. -/
theorem quotedFragments_copies {closes : Char → Bool} {fuel left : Nat} (hc : e.start ≤ c)
    (hquotes : Scan.InQuotes closes c.rest left) :
    Copies e s c (quotedFragments fuel left) (quotedFragments fuel left) := by
  induction fuel generalizing c left with
  | zero => exact .breakOff _
  | succ fuel ih =>
      have hlen := hquotes.inline.le_length
      have htake : (e.place c).rest.take left = c.rest.take left :=
        Scan.take_append (Nat.le_of_succ_le hlen)
      rw [quotedFragments]
      split
      · exact .pure [] hc
      · rename_i hleft
        rw [copies_here_bind, htake]
        obtain ⟨hle, hin, hstart⟩ := hquotes.text rfl
        generalize Scan.repeated quotedTextStep 0 (c.rest.take left) = n at hle hin hstart ⊢
        have hnext : ∀ {n}, n ≤ left → Scan.InQuotes closes (c.rest.drop n) (left - n) →
            Copies e s (c.advance n) (quotedFragments fuel (left - n))
              (quotedFragments fuel (left - n)) := by
          intro n hle hin
          exact ih (hc.trans (Cursor.le_advance (by omega))) (by rwa [Cursor.advance_rest])
        rcases n with _ | n
        · have hstart := hstart (by omega)
          obtain ⟨n, hok, hle, hin⟩ := hquotes.interpolation hstart
          have hcount : c.rest.length - (c.advance n).rest.length = n := by
            rw [Cursor.advance_rest, List.length_drop]
            omega
          rw [copies_bind_iff (interpolation_run hstart hok)
            (interpolation_place_run hc hstart hok), copies_here_bind,
            Embedding.place_length_sub, hcount]
          refine (hnext hle hin).bind fun fragments d hd => ?_
          exact .pure (Fragment.interpolation (c.interpolation n) :: fragments) hd
        · have hn : n + 1 ≤ c.rest.length := by omega
          rw [copies_bind_iff (textRun_run hn) (textRun_place_run hn)]
          refine (hnext hle hin).bind fun fragments d hd => ?_
          exact .pure (Fragment.quoted (c.textRun (n + 1)) :: fragments) hd

/-- Bare macro arguments are copied. -/
theorem interpolated_copies {inKey : Bool} (hc : e.start ≤ c) :
    Copies e s c (interpolated inKey) (interpolated inKey) := by
  have hends := Embedding.ends_of_le hc
  have hquote : Scan.startsQuoted (e.place c).rest = Scan.startsQuoted c.rest :=
    Scan.startsQuoted_append hends
  rw [interpolated, copies_here_bind, hquote]
  split
  · rename_i hquoted
    have hsame : Scan.quoted (e.place c).rest = Scan.quoted c.rest :=
      Scan.quoted_append hends hquoted
    rcases hscan : Scan.quoted c.rest with error | q
    · rw [Copies, bind_failed (scan_failed hscan), bind_failed (scan_failed (hsame.trans hscan)),
        Embedding.place_error_at (Scan.quoted_eq_error hquoted hscan)]
      exact .failed
    · have hlen := (Scan.inline_quoted hquoted hscan).le_length
      obtain ⟨closes, hpos, hin⟩ := Scan.InQuotes.of_quoted hquoted hscan
      have hcount : q.count = q.before + 1 := rfl
      have hne : c.rest ≠ [] := List.length_pos_iff.mp (by omega)
      rw [← Cursor.advance_rest] at hin
      rw [copies_bind_iff (scan_run hscan) (scan_run (hsame.trans hscan)),
        copies_take_bind (by omega)]
      have hbody : e.start ≤ c.advance 1 := hc.trans (Cursor.le_advance (by omega))
      have hend : e.start ≤ c.advance q.count := hc.trans (Cursor.le_advance hlen)
      refine (quotedFragments_copies hbody hin).bind fun fragments d _ => ?_
      rw [Embedding.place_advance hlen, copies_moveTo_bind, quoteAt, quoteAt,
        Embedding.place_peek hne]
      refine (Copies.spanFrom rfl hend).bind fun place d' hd' => ?_
      exact .pure (⟨fragments, quoteAt c, place⟩ : Interpolated) hd'
  · refine (bareFragments_copies hc ?_).bind fun fragments d hd => ?_
    · exact Nat.succ_le_succ (Embedding.length_le_place c)
    · refine (Copies.spanFrom rfl hd).bind fun place d' hd' => ?_
      exact .pure (⟨fragments, .bare, place⟩ : Interpolated) hd'

end Parser

end Mcfunction
