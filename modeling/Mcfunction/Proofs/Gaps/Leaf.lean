import Mcfunction.Proofs.Gaps.Seam
import Mcfunction.Proofs.Parser.Leaf

/-!
# Leaves in Front of a Gap

A leaf that ends at a gap is the same with another gap there. For most leaves the recognizers find
the same whatever the gap is; a quoted string or an interpolation is closed in front of the gap if
the run that reads it ends there.

## Main results

* `textRun_local`, `quotedString_local`, `coordinates_local`, …: the leaves.
* `interpolated_local`: interpolated text.
-/

namespace Mcfunction

variable {seam : Seam} {s : Settings} {c d : Cursor} {n : Nat}

namespace Seam

/-! ### Recognizers -/

/-- Whether a quoted string starts is the same with the other gap. -/
theorem place_startsQuoted (c : Cursor) :
    Scan.startsQuoted (seam.place c).rest = Scan.startsQuoted c.rest :=
  seam.place_scan c fun h => h.startsQuoted_append _

/-- Whether an interpolation starts is the same with the other gap. -/
theorem place_startsInterpolation (c : Cursor) :
    Scan.startsInterpolation (seam.place c).rest = Scan.startsInterpolation c.rest :=
  seam.place_scan c fun h => h.startsInterpolation_append _

/-- A quoted string that ends in front of the seam is the same with the other gap. -/
theorem place_quoted {q : Scan.Quoted} (hstart : Scan.startsQuoted c.rest)
    (hq : Scan.quoted c.rest = .ok q) (h : c.advance q.count ≤ seam.cut) :
    Scan.quoted (seam.place c).rest = .ok q := by
  have htake := place_take (Scan.inline_quoted hstart hq).le_length h
  have hsame := Scan.quoted_take_append hstart hq ((seam.place c).rest.drop q.count)
  rwa [← htake, List.take_append_drop] at hsame

/-- An interpolation that ends in front of the seam is the same with the other gap. -/
theorem place_interpolation_eq_ok (hstart : Scan.startsInterpolation c.rest)
    (hn : Scan.interpolation c.rest = .ok n) (h : c.advance n ≤ seam.cut) :
    Scan.interpolation (seam.place c).rest = .ok n := by
  have htake := place_take (Scan.inline_interpolation hstart hn).2.le_length h
  have hsame := Scan.interpolation_take_append hstart hn ((seam.place c).rest.drop n)
  rwa [← htake, List.take_append_drop] at hsame

/-- Whether a bare macro argument starts is the same with the other gap. -/
theorem place_startsInterpolated {inKey : Bool} (hquoted : Scan.startsQuoted c.rest = false) :
    Scan.startsInterpolated inKey (seam.place c).rest = Scan.startsInterpolated inKey c.rest := by
  rcases seam.place_cases c with ⟨chars, hrest, hplace⟩ | hsame
  · rw [hrest, seam.interchangeable.old_separates.startsQuoted_append] at hquoted
    rw [hrest, hplace, seam.interchangeable.old_separates.startsInterpolated_append hquoted,
      seam.interchangeable.new_separates.startsInterpolated_append hquoted]
  · rw [hsame]

/-- The namespace of a resource location is the same with the other gap. -/
theorem place_resourceNamespace (c : Cursor) :
    Scan.resourceNamespace (seam.place c).rest = Scan.resourceNamespace c.rest :=
  seam.place_scan c fun h => h.resourceNamespace_append _

/-- So is the path behind its colon. -/
theorem place_path {space : Nat} (hspace : Scan.resourceNamespace c.rest = some space) :
    Scan.path ((seam.place c).rest.drop (space + 1)) = Scan.path (c.rest.drop (space + 1)) := by
  rcases seam.place_cases c with ⟨chars, hrest, hplace⟩ | hsame
  · rw [hrest, seam.interchangeable.old_separates.resourceNamespace_append] at hspace
    rw [hrest, hplace, seam.interchangeable.old_separates.path_drop_append hspace,
      seam.interchangeable.new_separates.path_drop_append hspace]
  · rw [hsame]

/-- Coordinates that end in front of the seam are the same with the other gap. -/
theorem place_coordinates {parts : Triple (Nat × Nat)}
    (hparts : Scan.coordinates c.rest = some parts)
    (h : c.advance parts.z.2 ≤ seam.cut) : Scan.coordinates (seam.place c).rest = some parts := by
  obtain ⟨-, -, -, -, -, hline⟩ := Scan.coordinates_eq_some hparts
  obtain ⟨chars, hrest, hplace⟩ := exists_before ((Cursor.le_advance hline.le_length).trans h)
  have hlen := le_length hline.le_length h hrest
  rw [hrest] at hparts
  rw [hplace]
  exact seam.interchangeable.old_separates.coordinates_append_of_le
    seam.interchangeable.new_separates hparts hlen

/-! ### What the leaves are -/

section

variable (hn : n ≤ c.rest.length) (h : c.advance n ≤ seam.cut)

include hn h

/-- The node of a run of characters is the same with the other gap. -/
theorem place_textRun : (seam.place c).textRun n = c.textRun n := by
  simp only [Cursor.textRun, Cursor.spanTo, place_textBetween hn h, place_advance hn h,
    place_offset]

/-- The node of a bare string is the same with the other gap. -/
theorem place_bareString : (seam.place c).bareString n = c.bareString n := by
  simp only [Cursor.bareString, Cursor.spanTo, place_textBetween hn h, place_advance hn h,
    place_offset]

/-- The node of a fake player is the same with the other gap. -/
theorem place_fakePlayer : (seam.place c).fakePlayer n = c.fakePlayer n := by
  simp only [Cursor.fakePlayer, Cursor.spanTo, place_textBetween hn h, place_advance hn h,
    place_offset]

/-- The node of a number is the same with the other gap. -/
theorem place_number {suffix : Option Char} :
    (seam.place c).number n suffix = c.number n suffix := by
  have htake : (seam.place c).rest.take (if suffix.isSome then n - 1 else n) =
      c.rest.take (if suffix.isSome then n - 1 else n) := by
    have hall := congrArg (List.take (if suffix.isSome then n - 1 else n)) (place_take hn h)
    have hmin : min (if suffix.isSome then n - 1 else n) n =
        if suffix.isSome then n - 1 else n := by
      split <;> omega
    rwa [List.take_take, List.take_take, hmin] at hall
  simp only [Cursor.number, Cursor.spanTo, place_textBetween hn h, place_advance hn h,
    place_offset, htake]

end

/-- A next character in front of the seam is the same with the other gap. -/
theorem place_peek (hne : c.rest ≠ []) (h : c.advance 1 ≤ seam.cut) :
    (seam.place c).peek = c.peek := by
  have hone : 1 ≤ c.rest.length := List.length_pos_iff.mpr hne
  have htake := congrArg List.head? (place_take hone h)
  rwa [List.head?_take, List.head?_take, if_neg (by decide), if_neg (by decide)] at htake

/-- The node of a quoted string in front of the seam is the same with the other gap. -/
theorem place_quotedString {q : Scan.Quoted} (hn : q.count ≤ c.rest.length)
    (h : c.advance q.count ≤ seam.cut) :
    (seam.place c).quotedString q = c.quotedString q := by
  have hbefore : q.before ≤ q.count := Nat.le_succ _
  have hone : 1 ≤ q.count := Nat.succ_pos _
  have hlt := (Cursor.advance_le_advance hbefore hn).trans h
  have hpeek := place_peek (List.length_pos_iff.mp (hone.trans hn))
    ((Cursor.advance_le_advance hone hn).trans h)
  simp only [Cursor.quotedString, Cursor.spanTo, place_textBetween (hbefore.trans hn) hlt,
    place_advance hn h, place_offset, Parser.quoteAt, hpeek]

/-- The node of an interpolation in front of the seam is the same with the other gap. -/
theorem place_interpolation (hn : n ≤ c.rest.length) (h : c.advance n ≤ seam.cut) :
    (seam.place c).interpolation n = c.interpolation n := by
  have hle : n - 1 ≤ n := Nat.sub_le n 1
  simp only [Cursor.interpolation, Cursor.spanTo, place_advance hn h, place_offset,
    place_textBetween (hle.trans hn) ((Cursor.advance_le_advance hle hn).trans h)]

/-- The node of a resource location in front of the seam is the same with the other gap. -/
theorem place_resourceLocation {space path : Nat} (hn : space + 1 + path ≤ c.rest.length)
    (h : c.advance (space + 1 + path) ≤ seam.cut) :
    (seam.place c).resourceLocation space path = c.resourceLocation space path := by
  have hle : space ≤ space + 1 + path := by omega
  simp only [Cursor.resourceLocation, Cursor.spanTo, place_advance hn h, place_offset,
    place_textBetween hn h,
    place_textBetween (hle.trans hn) ((Cursor.advance_le_advance hle hn).trans h)]

/-- Parts of coordinates in front of the seam are the same with the other gap. -/
theorem place_coordinatePart {range : Nat × Nat} (hle : range.1 ≤ range.2)
    (hn : range.2 ≤ c.rest.length) (h : c.advance range.2 ≤ seam.cut) :
    (seam.place c).coordinatePart range = c.coordinatePart range := by
  have htake := place_take hn h
  simp only [Cursor.coordinatePart, place_offsetAfter hn h, ← List.drop_take, htake,
    place_offsetAfter (hle.trans hn) ((Cursor.advance_le_advance hle hn).trans h)]

/-- The node of coordinates in front of the seam is the same with the other gap. -/
theorem place_coordinates_eq {parts : Triple (Nat × Nat)}
    (hparts : Scan.coordinates c.rest = some parts) (h : c.advance parts.z.2 ≤ seam.cut) :
    (seam.place c).coordinates parts = c.coordinates parts := by
  obtain ⟨hx, hxy, hy, hyz, hz, hline⟩ := Scan.coordinates_eq_some hparts
  have hlen := hline.le_length
  have hpart : ∀ range : Nat × Nat, range.1 ≤ range.2 → range.2 ≤ parts.z.2 →
      (seam.place c).coordinatePart range = c.coordinatePart range := fun range hle hmax =>
    place_coordinatePart hle (hmax.trans hlen) ((Cursor.advance_le_advance hmax hlen).trans h)
  simp only [Cursor.coordinates, Cursor.spanTo, Triple.map, place_advance hlen h, place_offset,
    hpart _ hx.le (by omega), hpart _ hy.le (by omega), hpart _ hz.le le_rfl]

end Seam

namespace Parser

/-! ### Parsers of leaves -/

/-- Runs of characters in front of the gap do not depend on it. -/
theorem textRun_local (hn : n ≤ c.rest.length) : Local seam s c (textRun n) (textRun n) :=
  .of_run (textRun_run hn) hn fun h => by
    rw [textRun_run (Seam.le_length_place hn h), Seam.place_textRun hn h]

/-- Bare strings in front of the gap do not depend on it. -/
theorem bareString_local (hn : n ≤ c.rest.length) : Local seam s c (bareString n) (bareString n) :=
  .of_run (bareString_run hn) hn fun h => by
    rw [bareString_run (Seam.le_length_place hn h), Seam.place_bareString hn h]

/-- Quoted strings in front of the gap do not depend on it. -/
theorem quotedString_local (hstart : Scan.startsQuoted c.rest) :
    Local seam s c quotedString quotedString := by
  rcases hscan : Scan.quoted c.rest with error | q
  · exact .of_failed (quotedString_failed hscan)
  · have hn := (Scan.inline_quoted hstart hscan).le_length
    refine .of_run (quotedString_run hstart hscan) hn fun h => ?_
    rw [quotedString_run (Seam.place_startsQuoted c ▸ hstart) (Seam.place_quoted hstart hscan h),
      Seam.place_quotedString hn h]

/-- Interpolations in front of the gap do not depend on it. -/
theorem interpolation_local (hstart : Scan.startsInterpolation c.rest) :
    Local seam s c interpolation interpolation := by
  rcases hscan : Scan.interpolation c.rest with error | n
  · exact .of_failed (interpolation_failed hscan)
  · have hn := (Scan.inline_interpolation hstart hscan).2.le_length
    refine .of_run (interpolation_run hstart hscan) hn fun h => ?_
    rw [interpolation_run (Seam.place_startsInterpolation c ▸ hstart)
      (Seam.place_interpolation_eq_ok hstart hscan h), Seam.place_interpolation hn h]

/-- Numbers in front of the gap do not depend on it. -/
theorem number_local {suffix : Option Char} (h : Scan.wholeNumber c.rest = some (n, suffix)) :
    Local seam s c (number n suffix) (number n suffix) := by
  have hn := (Scan.inline_suffixedNumber (Scan.wholeNumber_eq_some h)).le_length
  have hsame : Scan.wholeNumber (seam.place c).rest = Scan.wholeNumber c.rest :=
    seam.place_scan c fun h => h.wholeNumber_append _
  exact .of_run (number_run h) hn fun hcut => by
    rw [number_run (hsame.trans h), Seam.place_number hn hcut]

/-- Resource locations in front of the gap do not depend on it. -/
theorem resourceLocation_local {space path : Nat}
    (hspace : Scan.resourceNamespace c.rest = some space)
    (hpath : Scan.path (c.rest.drop (space + 1)) = some path) :
    Local seam s c (resourceLocation space path) (resourceLocation space path) := by
  have hn := (Scan.inline_location hspace hpath).le_length
  refine .of_run (resourceLocation_run hspace hpath) hn fun hcut => ?_
  rw [resourceLocation_run ((Seam.place_resourceNamespace c).trans hspace)
    ((Seam.place_path hspace).trans hpath), Seam.place_resourceLocation hn hcut]

/-- Coordinates in front of the gap do not depend on it. -/
theorem coordinates_local : Local seam s c coordinates coordinates := by
  rcases hscan : Scan.coordinates c.rest with _ | parts
  · exact .of_failed (coordinates_failed hscan)
  · obtain ⟨-, -, -, -, -, hline⟩ := Scan.coordinates_eq_some hscan
    refine .of_run (coordinates_run hscan) hline.le_length fun h => ?_
    rw [coordinates_run (Seam.place_coordinates hscan h), Seam.place_coordinates_eq hscan h]

/-! ### Interpolated text -/

/-- Fragments in front of the gap do not depend on it, given enough fuel. -/
theorem bareFragments_local {inKey : Bool} {fuel fuel' : Nat}
    (hfuel : c ≤ seam.cut → (seam.place c).rest.length < fuel') :
    Local seam s c (bareFragments inKey fuel) (bareFragments inKey fuel') := by
  induction fuel generalizing c fuel' with
  | zero => exact .breakOff _
  | succ fuel ih =>
      refine .of_turn hfuel fun k hk => ?_
      have hnext : ∀ {n}, 0 < n → n ≤ c.rest.length →
          Local seam s (c.advance n) (bareFragments inKey fuel) (bareFragments inKey k) :=
        fun hpos hn => ih (Seam.length_place_lt_of_turn hfuel hk (Cursor.lt_advance hpos hn))
      have hfragment : Scan.fragment inKey (seam.place c).rest = Scan.fragment inKey c.rest :=
        seam.place_scan c fun h => h.fragment_append _
      rw [bareFragments, bareFragments]
      refine .here_bind ?_
      rw [Seam.place_startsInterpolation, hfragment]
      split
      · rename_i hstart
        refine (interpolation_local hstart).bind_of fun piece log d hrun _ => ?_
        rcases hscan : Scan.interpolation c.rest with error | n
        · rw [interpolation_failed hscan] at hrun
          cases hrun
        · obtain ⟨hpos, hline⟩ := Scan.inline_interpolation hstart hscan
          rw [interpolation_run hstart hscan] at hrun
          cases hrun
          exact (hnext hpos hline.le_length).bind fun fragments d _ => .pure _
      · rcases hscan : Scan.fragment inKey c.rest with _ | n
        · exact .pure []
        · have hn := (Scan.inline_fragment hscan).le_length
          refine (textRun_local hn).bind_of fun run log d hrun _ => ?_
          rw [textRun_run hn] at hrun
          cases hrun
          exact (hnext (Scan.fragment_pos hscan) hn).bind fun fragments d _ => .pure _

/-- The text between two quotes of which the second stands in front of the seam. -/
theorem quotedFragments_local {closes : Char → Bool} {fuel left : Nat}
    (hquotes : Scan.InQuotes closes c.rest left) (hcut : c.advance left ≤ seam.cut) :
    Local seam s c (quotedFragments fuel left) (quotedFragments fuel left) := by
  induction fuel generalizing c left with
  | zero => exact .breakOff _
  | succ fuel ih =>
      have hlen : left ≤ c.rest.length := (Nat.le_succ _).trans hquotes.inline.le_length
      rw [quotedFragments]
      split
      · exact .pure []
      · rename_i hleft
        refine .here_bind ?_
        rw [Seam.place_take hlen hcut]
        obtain ⟨hle, hin, hstart⟩ := hquotes.text rfl
        generalize Scan.repeated quotedTextStep 0 (c.rest.take left) = n at hle hin hstart ⊢
        have hnext : ∀ {n}, n ≤ left → Scan.InQuotes closes (c.rest.drop n) (left - n) →
            Local seam s (c.advance n) (quotedFragments fuel (left - n))
              (quotedFragments fuel (left - n)) := by
          intro n hle hin
          refine ih (by rwa [Cursor.advance_rest]) ?_
          rwa [Cursor.advance_advance, Nat.add_sub_cancel' hle]
        rcases n with _ | n
        · have hstart := hstart (by omega)
          obtain ⟨n, hok, hle, hin⟩ := hquotes.interpolation hstart
          have hn := hle.trans hlen
          have hcut' := (Cursor.advance_le_advance hle hlen).trans hcut
          have hrun' : interpolation s (seam.place c) =
              .done (c.interpolation n) [] (seam.place (c.advance n)) := by
            rw [interpolation_run (Seam.place_startsInterpolation c ▸ hstart)
              (Seam.place_interpolation_eq_ok hstart hok hcut'), Seam.place_advance hn hcut',
              Seam.place_interpolation hn hcut']
          refine .bind_done (Cursor.le_advance hn) (interpolation_run hstart hok)
            (fun _ => hrun') ?_
          · have hcount : c.rest.length - (c.advance n).rest.length = n := by
              rw [Cursor.advance_rest, List.length_drop]
              omega
            have hcount' : (seam.place c).rest.length - (seam.place (c.advance n)).rest.length =
                n := by
              have := Seam.le_length_place hn hcut'
              rw [← Seam.place_advance hn hcut', Cursor.advance_rest, List.length_drop]
              omega
            refine .here_bind ?_
            rw [hcount, hcount']
            exact (hnext hle hin).bind fun fragments d _ => .pure _
        · have hn : n + 1 ≤ c.rest.length := by omega
          refine (textRun_local hn).bind_of fun run log d hrun _ => ?_
          rw [textRun_run hn] at hrun
          cases hrun
          exact (hnext hle hin).bind fun fragments d _ => .pure _

/-- Interpolated text in quotes ends with the closing quote. -/
theorem interpolated_stop {inKey : Bool} {q : Scan.Quoted} {argument : Interpolated}
    {log : List Event} (hstart : Scan.startsInterpolated inKey c.rest)
    (hquoted : Scan.startsQuoted c.rest) (hscan : Scan.quoted c.rest = .ok q)
    (hrun : interpolated inKey s c = .done argument log d) : d = c.advance q.count := by
  cases (interpolated_steady (.refl c) hstart).post_of_run hrun with
  | quoted _ hscan' =>
      rw [hscan] at hscan'
      cases hscan'
      rfl
  | bare hbare =>
      rw [hquoted] at hbare
      cases hbare

/-- Interpolated text that the recognizers announce. A quoted one that reaches beyond the seam is
not compared with anything. -/
theorem interpolated_local {inKey : Bool} (hstart : Scan.startsInterpolated inKey c.rest) :
    Local seam s c (interpolated inKey) (interpolated inKey) := by
  by_cases hquoted : Scan.startsQuoted c.rest
  · rcases hscan : Scan.quoted c.rest with error | q
    · rw [Scan.startsInterpolated, if_pos hquoted, hscan] at hstart
      cases hstart
    · have hlen := (Scan.inline_quoted hquoted hscan).le_length
      by_cases hcut : c.advance q.count ≤ seam.cut
      · obtain ⟨closes, hpos, hin⟩ := Scan.InQuotes.of_quoted hquoted hscan
        have hcount : q.count = q.before + 1 := rfl
        have hbefore : (c.advance 1).advance (q.before - 1) ≤ c.advance q.count := by
          rw [Cursor.advance_advance]
          exact Cursor.advance_le_advance (by omega) hlen
        have hscan' := Seam.place_quoted hquoted hscan hcut
        have hpeek := Seam.place_peek (List.length_pos_iff.mp (by omega))
          ((Cursor.advance_le_advance (by omega : 1 ≤ q.count) hlen).trans hcut)
        rw [← Cursor.advance_rest] at hin
        rw [interpolated]
        refine .here_bind ?_
        rw [Seam.place_startsQuoted, if_pos hquoted, if_pos hquoted]
        refine .bind_done le_rfl (scan_run hscan) (fun _ => scan_run hscan') ?_
        refine .take_bind (by omega) ?_
        refine (quotedFragments_local hin (hbefore.trans hcut)).bind_of
          fun fragments log d hrun _ => ?_
        obtain ⟨_, -, hsame⟩ := quotedFragments_run hin (by omega : _ < q.before + 1)
        obtain ⟨-, -, rfl⟩ := Outcome.done.inj ((hsame s).symm.trans hrun)
        rw [Seam.place_advance hlen hcut]
        refine .moveTo_bind hbefore ?_
        rw [Seam.place_offset, quoteAt, quoteAt, hpeek]
        exact (Local.spanFrom _).bind fun place d _ => .pure _
      · intro argument log d hrun
        obtain rfl := interpolated_stop hstart hquoted hscan hrun
        exact ⟨Cursor.le_advance hlen, fun hd => absurd hd hcut⟩
  · rw [interpolated]
    refine .here_bind ?_
    rw [Seam.place_startsQuoted, if_neg hquoted, if_neg hquoted, Seam.place_offset]
    refine (bareFragments_local fun _ => Nat.lt_succ_self _).bind fun fragments d _ => ?_
    exact (Local.spanFrom _).bind fun place d _ => .pure _

/-- Where interpolated text or something else stands, and if something else in quotes, a quoted
string at first. -/
theorem interpolated_or_local {α : Type} {inKey : Bool} {f : Interpolated → Parser α}
    {p p' : Parser α} (hf : ∀ argument d, Local seam s d (f argument) (f argument))
    (hp : Local seam s c p p')
    (hquoted : Scan.startsQuoted c.rest → ∃ g g' : StringLiteral → Parser α,
      p = (quotedString >>= g) ∧ ∀ literal d, Local seam s d (g literal) (g' literal)) :
    Local seam s c
      (if Scan.startsInterpolated inKey c.rest then interpolated inKey >>= f else p)
      (if Scan.startsInterpolated inKey (seam.place c).rest then interpolated inKey >>= f
        else p') := by
  by_cases hquote : Scan.startsQuoted c.rest
  · obtain ⟨g, g', rfl, hg⟩ := hquoted hquote
    rcases hscan : Scan.quoted c.rest with error | q
    · have hplain : Scan.startsInterpolated inKey c.rest = false := by
        rw [Scan.startsInterpolated, if_pos hquote, hscan]
      rw [hplain, if_neg Bool.false_ne_true]
      exact .of_failed (bind_failed (quotedString_failed hscan))
    · have hlen := (Scan.inline_quoted hquote hscan).le_length
      by_cases hcut : c.advance q.count ≤ seam.cut
      · have hsame : Scan.startsInterpolated inKey (seam.place c).rest =
            Scan.startsInterpolated inKey c.rest := by
          rw [Scan.startsInterpolated, Scan.startsInterpolated, Seam.place_startsQuoted,
            if_pos hquote, if_pos hquote, hscan, Seam.place_quoted hquote hscan hcut]
        rw [hsame]
        split
        · rename_i hstart
          exact (interpolated_local hstart).bind fun argument d _ => hf argument d
        · exact hp
      · by_cases hstart : Scan.startsInterpolated inKey c.rest
        · rw [if_pos hstart]
          intro value log d hrun
          obtain ⟨hcd, -⟩ := ((interpolated_local hstart).bind fun argument d _ =>
            hf argument d) _ _ _ hrun
          rw [bind_run] at hrun
          obtain ⟨argument, earlier, e, later, hfirst, hnext, rfl⟩ :=
            Outcome.andThen_eq_done hrun
          obtain rfl := interpolated_stop hstart hquote hscan hfirst
          have hed := (hf argument _ _ _ _ hnext).1
          exact ⟨hcd, fun hd => absurd (hed.trans hd) hcut⟩
        · rw [if_neg hstart]
          exact .bind_beyond (quotedString_run hquote hscan) (Cursor.le_advance hlen) hcut (hg _ _)
  · rw [Bool.not_eq_true] at hquote
    rw [Seam.place_startsInterpolated hquote]
    split
    · rename_i hstart
      exact (interpolated_local hstart).bind fun argument d _ => hf argument d
    · exact hp

end Parser

end Mcfunction
