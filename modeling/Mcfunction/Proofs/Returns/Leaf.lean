import Mcfunction.Proofs.Parser.Leaf
import Mcfunction.Proofs.Returns.Mirror

/-!
# Leaves without Carriage Returns

Recovery skips the same text less its returns, and no leaf holds a return. An error about an
unexpected character tells of a return only where a segment of a path is missing.

## Main results

* `orPlaceholder_mirrors`: recovery skips the same text.
* `unexpected_mirrors`: errors about a character.
* `interpolated_mirrors`, `coordinates_mirrors`, `quotedString_mirrors`: the leaves.
-/

namespace Mcfunction

open Text (unix unixCount)
open Scan (ReturnFree)

variable {t : DosText} {s : Settings} {c d : Cursor} {m n : Nat}

/-! ### Recovery -/

namespace DosText

/-- A return takes no bytes of the text without returns. -/
theorem place_charEnd_of_return (hc : t.start ≤ c) (hpeek : c.peek = some '\r') :
    t.place c.charEnd = t.place c.offset := by
  obtain ⟨tail, hrest⟩ := List.head?_eq_some_iff.mp hpeek
  have hone : 1 ≤ c.rest.length := Cursor.length_pos_of_peek hpeek
  rw [Cursor.charEnd_eq (Cursor.ne_nil_of_peek hpeek), Cursor.advance_offset hone,
    place_add_take hc, hrest]
  rfl

/-- What recovery skips ends at the place without returns. -/
theorem back_skipEnd {error : ParseError} (hc : t.start ≤ c) (hne : c.rest ≠ [])
    (hreturn : c.peek ≠ some '\r') :
    Parser.skipEnd (t.back c) (t.error error) = t.place (Parser.skipEnd c error) := by
  obtain ⟨x, -, -, hpeek, hx⟩ := exists_of_not_return hne hreturn
  have hchunk : (t.back c).offsetAfter (Scan.balancedChunk [] 0 (t.back c).rest) =
      t.place (c.offsetAfter (Scan.balancedChunk [] 0 c.rest)) := by
    have hscan : Scan.balancedChunk [] 0 (unix c.rest) =
        unixCount c.rest (Scan.balancedChunk [] 0 c.rest) :=
      Scan.balancedChunk_unix (paired_rest hc)
    rw [back_rest, hscan]
    exact back_offsetAfter hc
      ((Scan.balancedChunk_le_statement _).trans (Scan.statement_le_length _))
  have hstop : (t.error error).span.stop = t.place error.span.stop := rfl
  have hend := (back_charEnd hc).resolve_right hreturn
  simp only [Parser.skipEnd, back_statementEnd hc, hchunk, hstop, back_offset, ← place_min,
    ← place_max, place_le_iff hc hpeek hx, hend]
  split <;> rfl

end DosText

namespace Parser

/-- Recovery mirrors itself. -/
theorem recover_mirrors {error : ParseError} (hc : t.start ≤ c) (hne : c.rest ≠ [])
    (hreturn : c.peek ≠ some '\r') :
    Mirrors t s c (recover error) (recover (t.error error)) := by
  rw [recover, recover, mirrors_here_bind, DosText.back_skipEnd hc hne hreturn]
  refine (Mirrors.span rfl rfl hc).bind fun skipped d hd => ?_
  refine .log_bind rfl (.goTo_bind hd rfl fun d' hd' => ?_)
  have hmessage : (t.error error).message = unixMessage error.message :=
    error.cause.message_unix
  rw [hmessage]
  exact .pure (⟨error.message, skipped⟩ : ErrorNode) (hd.trans hd')

/-- A placeholder for what could not be read mirrors the same placeholder. -/
theorem orPlaceholder_mirrors {α : Type} [Retell α] {p p' : Parser α} {placeholder : ErrorNode → α}
    (hplaceholder : ∀ node,
      placeholder (retell t.retelling node) = retell t.retelling (placeholder node))
    (hc : t.start ≤ c) (hne : c.rest ≠ []) (hreturn : c.peek ≠ some '\r')
    (h : Mirrors t s c p p') :
    Mirrors t s c (orPlaceholder p placeholder) (orPlaceholder p' placeholder) := by
  refine h.orElse fun error => ?_
  rw [mirrors_settings_bind]
  split
  · exact .fail error
  · refine (recover_mirrors hc hne hreturn).bind fun node d hd => ?_
    rw [hplaceholder]
    exact .pure _ hd

/-- At a return the text without returns has a line break, at which nothing is found. -/
theorem unexpected_mirrors {α : Type} [Retell α] {wanted : Wanted} (hc : t.start ≤ c)
    (hreturn : c.peek = some '\r' → wanted = .segment) :
    Mirrors t s c (unexpected wanted : Parser α) (unexpected wanted) := by
  have hcause : ∀ {found}, found ≠ some '\r' →
      (Cause.unexpectedToken wanted found).unix = .unexpectedToken wanted found := by
    intro found hfound
    refine if_neg fun heq => hfound ?_
    injection heq
  by_cases hcr : c.peek = some '\r'
  · obtain rfl := hreturn hcr
    have hnewline : (t.back c).peek = some '\n' := by
      obtain ⟨tail, hrest⟩ := List.head?_eq_some_iff.mp hcr
      have hpaired := DosText.paired_rest hc
      rw [hrest] at hpaired
      obtain ⟨tail, rfl⟩ := hpaired.exists_newline
      rw [Cursor.peek, DosText.back_rest, hrest]
      rfl
    have hline : Scan.atLineEnd (t.back c).rest := by
      obtain ⟨tail, hrest⟩ := List.head?_eq_some_iff.mp hnewline
      rw [hrest]
      rfl
    have hspan : (t.back c).spanTo (t.back c) = retell t.retelling
        ⟨c.offset, max (min c.charEnd c.statementEnd.offset) c.offset⟩ := by
      have hstop : t.place (max (min c.charEnd c.statementEnd.offset) c.offset) =
          t.place c.offset := by
        rw [DosText.place_max, DosText.place_min, DosText.place_charEnd_of_return hc hcr]
        exact max_eq_right (min_le_left _ _)
      exact congrArg (Span.mk (t.place c.offset)) hstop.symm
    refine .of_failed (unexpected_run hcr (by decide)) ?_
    rw [unexpected_run_atLineEnd hline, hspan]
    rfl
  · have hsame := DosText.back_peek hc hcr
    rcases hline : Scan.atLineEnd c.rest
    · obtain ⟨x, tail, hrest, hpeek, -⟩ :=
        DosText.exists_of_not_return (ne_nil_of_not_atLineEnd hline) hcr
      have hx : x ≠ '\n' := by
        rintro rfl
        rw [hrest] at hline
        cases hline
      have hstatement : (t.back c).statementEnd.offset = t.place c.statementEnd.offset :=
        DosText.back_statementEnd hc
      refine .of_failed (unexpected_run hpeek hx) ?_
      rw [unexpected_run (hsame.trans hpeek) hx, hstatement,
        (DosText.back_charEnd hc).resolve_right hcr, DosText.back_offset, ← DosText.place_min,
        ← DosText.place_max, DosText.error, hcause (hpeek ▸ hcr)]
      rfl
    · refine .of_failed (unexpected_run_atLineEnd hline) ?_
      rw [unexpected_run_atLineEnd (by rw [DosText.back_atLineEnd hc hcr, hline]), DosText.error,
        hcause (by simp)]
      rfl

/-- A clause that nests too deep is refused at the place without returns. -/
theorem tooDeep_mirrors {α : Type} [Retell α] {start : Cursor} (hstart : t.start ≤ start)
    (hreturn : start.peek ≠ some '\r') :
    Mirrors t s c (tooDeep start : Parser α) (tooDeep (t.back start)) := by
  rw [tooDeep, tooDeep, mirrors_settings_bind]
  exact .failAt rfl rfl ((DosText.back_charEnd hstart).resolve_right hreturn)

end Parser

/-! ### Leaves -/

namespace DosText

section

variable (hc : t.start ≤ c) (hn : ReturnFree c.rest n)

include hc hn

/-- A span on one line without returns. -/
theorem back_spanTo :
    (t.back c).spanTo ((t.back c).advance n) = retell t.retelling (c.spanTo (c.advance n)) := by
  rw [back_advance_of_free hc hn]
  rfl

/-- Text as it stands is retold. -/
theorem back_textRun : (t.back c).textRun n = retell t.retelling (c.textRun n) := by
  rw [Cursor.textRun, back_textBetween hn, back_spanTo hc hn, ← toUnix_textBetween hn]
  rfl

/-- A bare string is retold. -/
theorem back_bareString : (t.back c).bareString n = retell t.retelling (c.bareString n) := by
  rw [Cursor.bareString, back_textBetween hn, back_spanTo hc hn, ← toUnix_textBetween hn]
  rfl

/-- An interpolation is retold. -/
theorem back_interpolation :
    (t.back c).interpolation n = retell t.retelling (c.interpolation n) := by
  have htext := hn.of_le (Nat.sub_le n 1)
  rw [Cursor.interpolation, back_textBetween htext, back_spanTo hc hn, ← toUnix_textBetween htext]
  rfl

/-- A fake player is retold. -/
theorem back_fakePlayer : (t.back c).fakePlayer n = retell t.retelling (c.fakePlayer n) := by
  rw [Cursor.fakePlayer, back_textBetween hn, back_spanTo hc hn, ← toUnix_textBetween hn]
  rfl

/-- A number is retold. -/
theorem back_number {suffix : Option Char} :
    (t.back c).number n suffix = retell t.retelling (c.number n suffix) := by
  have hdigits : ReturnFree c.rest (if suffix.isSome then n - 1 else n) := by
    refine hn.of_le ?_
    split <;> omega
  rw [Cursor.number, back_rest, hdigits.take_unix, back_textBetween hn, back_spanTo hc hn,
    ← toUnix_textBetween hn]
  rfl

end

/-- The quote that comes next does not depend on returns. -/
theorem back_quoteAt (hc : t.start ≤ c) : Parser.quoteAt (t.back c) = Parser.quoteAt c := by
  rw [Parser.quoteAt, back_peek_beq hc (by decide) (by decide), Parser.quoteAt]

/-- A quoted string is retold. -/
theorem back_quotedString {q : Scan.Quoted} (hc : t.start ≤ c)
    (hq : ReturnFree c.rest q.count) :
    (t.back c).quotedString q = retell t.retelling (c.quotedString q) := by
  have htext : ReturnFree c.rest q.before := hq.of_le (Nat.le_succ _)
  rw [Cursor.quotedString, back_textBetween htext, back_spanTo hc hq, back_quoteAt hc,
    ← toUnix_textBetween htext]
  rfl

/-- A resource location is retold. -/
theorem back_resourceLocation {space path : Nat} (hc : t.start ≤ c)
    (hn : ReturnFree c.rest (space + 1 + path)) :
    (t.back c).resourceLocation space path =
      retell t.retelling (c.resourceLocation space path) := by
  have hspace : ReturnFree c.rest space := hn.of_le (by omega)
  rw [Cursor.resourceLocation, back_textBetween hspace, back_textBetween hn, back_spanTo hc hn,
    ← toUnix_textBetween hspace, ← toUnix_textBetween hn]
  rfl

/-- A part of coordinates is retold with its span. -/
theorem coordinatePart_retell (chars : List Char) (span : Span) (r : Retelling) :
    Parser.coordinatePart chars (retell r span) = retell r (Parser.coordinatePart chars span) := by
  unfold Parser.coordinatePart
  split <;> rfl

/-- A part of coordinates in a text is retold. -/
theorem back_coordinatePart {range : Nat × Nat} (hc : t.start ≤ c) (hle : range.1 ≤ range.2)
    (hn : ReturnFree c.rest range.2) :
    (t.back c).coordinatePart range = retell t.retelling (c.coordinatePart range) := by
  have hchars : ((t.back c).rest.drop range.1).take (range.2 - range.1) =
      (c.rest.drop range.1).take (range.2 - range.1) := by
    rw [back_rest, ← List.drop_take, ← List.drop_take, hn.take_unix]
  rw [Cursor.coordinatePart, hchars, back_offsetAfter_of_free hc hn,
    back_offsetAfter_of_free hc (hn.of_le hle)]
  exact coordinatePart_retell _ ⟨c.offsetAfter range.1, c.offsetAfter range.2⟩ t.retelling

/-- Where an error of a recognizer lies follows the text when the returns go. -/
theorem error_at {error : Scan.Error} (hc : t.start ≤ c) (hstop : error.stop ≤ c.rest.length) :
    t.error (error.at c) = (error.unix c.rest).at (t.back c) := by
  rw [Scan.Error.at, Scan.Error.at, Scan.Error.unix, back_offsetAfter hc hstop,
    back_offsetAfter hc (error.ordered.trans hstop)]
  rfl

end DosText

namespace Parser

/-- A run of characters that holds no return is taken in both texts, and its node is the retold
one. -/
theorem textRun_back_run (hc : t.start ≤ c) (hn : ReturnFree c.rest n) :
    textRun n s (t.back c) =
      .done (retell t.retelling (c.textRun n)) [] (t.back (c.advance n)) := by
  rw [textRun_run (DosText.length_back_of_free hn), DosText.back_textRun hc hn,
    DosText.back_advance_of_free hc hn]

/-- A run of characters without a return is taken in lockstep. -/
theorem textRun_mirrors (hc : t.start ≤ c) (hn : ReturnFree c.rest n) :
    Mirrors t s c (textRun n) (textRun n) :=
  .of_run (textRun_run hn.le_length) (textRun_back_run hc hn)
    (hc.trans (Cursor.le_advance hn.le_length))

/-- Bare strings do not depend on returns. -/
theorem bareString_mirrors (hc : t.start ≤ c) (hn : ReturnFree c.rest n) :
    Mirrors t s c (bareString n) (bareString n) := by
  refine .of_free hc hn (bareString_run hn.le_length) ?_
  rw [bareString_run (DosText.length_back_of_free hn), DosText.back_bareString hc hn]

/-- Quoted strings are read in lockstep, whether they are closed or not. -/
theorem quotedString_mirrors (hc : t.start ≤ c) (hquote : Scan.startsQuoted c.rest) :
    Mirrors t s c quotedString quotedString := by
  have hpaired := DosText.paired_rest hc
  have hsame : Scan.quoted (t.back c).rest = _ := Scan.quoted_unix hpaired hquote
  rcases hscan : Scan.quoted c.rest with error | q
  · rw [hscan] at hsame
    refine .of_failed (quotedString_failed hscan) ?_
    rw [quotedString_failed hsame, DosText.error_at hc (Scan.quoted_eq_error hquote hscan)]
  · rw [hscan] at hsame
    have hquote' : Scan.startsQuoted (t.back c).rest :=
      (Scan.startsQuoted_unix hpaired).trans hquote
    have hfree := Scan.returnFree_quoted hpaired hquote hscan
    refine .of_free hc hfree (quotedString_run hquote hscan) ?_
    rw [quotedString_run hquote' hsame, DosText.back_quotedString hc hfree]

/-- An interpolation without errors is taken in both texts, and its node is the retold one. -/
theorem interpolation_back_run (hc : t.start ≤ c) (hstart : Scan.startsInterpolation c.rest)
    (h : Scan.interpolation c.rest = .ok n) :
    interpolation s (t.back c) =
      .done (retell t.retelling (c.interpolation n)) [] (t.back (c.advance n)) := by
  have hpaired := DosText.paired_rest hc
  have hfree := Scan.returnFree_interpolation hpaired hstart h
  have hstart' : Scan.startsInterpolation (t.back c).rest :=
    (Scan.startsInterpolation_unix hpaired).trans hstart
  have h' : Scan.interpolation (t.back c).rest = .ok n :=
    (Scan.interpolation_unix hpaired hstart).trans h
  rw [interpolation_run hstart' h', DosText.back_interpolation hc hfree,
    DosText.back_advance_of_free hc hfree]

/-- Interpolations are read in lockstep, errors included. -/
theorem interpolation_mirrors (hc : t.start ≤ c) (hstart : Scan.startsInterpolation c.rest) :
    Mirrors t s c interpolation interpolation := by
  have hpaired := DosText.paired_rest hc
  rcases hscan : Scan.interpolation c.rest with error | n
  · have hfree := Scan.returnFree_interpolation_error hpaired hstart hscan
    have hscan' : Scan.interpolation (t.back c).rest = .error error :=
      (Scan.interpolation_unix hpaired hstart).trans hscan
    refine .of_failed (interpolation_failed hscan) ?_
    rw [interpolation_failed hscan', DosText.error_at hc hfree.le_length,
      Scan.Error.unix_of_returnFree hfree]
  · have hlen := (Scan.inline_interpolation hstart hscan).2.le_length
    exact .of_run (interpolation_run hstart hscan) (interpolation_back_run hc hstart hscan)
      (hc.trans (Cursor.le_advance hlen))

/-- A whole number is one value in both texts. -/
theorem number_mirrors {suffix : Option Char} (hc : t.start ≤ c)
    (h : Scan.wholeNumber c.rest = some (n, suffix)) :
    Mirrors t s c (number n suffix) (number n suffix) := by
  have hsame : Scan.wholeNumber (t.back c).rest = Scan.wholeNumber c.rest :=
    Scan.wholeNumber_unix (DosText.paired_rest hc)
  have hfree : ReturnFree c.rest n :=
    (Scan.taken_suffixedNumber (Scan.wholeNumber_eq_some h)).returnFree (by decide)
  refine .of_free hc hfree (number_run h) ?_
  rw [number_run (hsame.trans h), DosText.back_number hc hfree]

/-- Resource locations do not depend on returns. -/
theorem resourceLocation_mirrors {space path : Nat} (hc : t.start ≤ c)
    (hspace : Scan.resourceNamespace c.rest = some space)
    (hpath : Scan.path (c.rest.drop (space + 1)) = some path) :
    Mirrors t s c (resourceLocation space path) (resourceLocation space path) := by
  have hpaired := DosText.paired_rest hc
  have hfree : ReturnFree c.rest (space + 1 + path) :=
    (Scan.taken_location hspace hpath).returnFree (by decide)
  have hspace' : Scan.resourceNamespace (t.back c).rest = some space :=
    (Scan.resourceNamespace_unix hpaired).trans hspace
  have hpath' : Scan.path ((t.back c).rest.drop (space + 1)) = some path :=
    (Scan.path_drop_unix hpaired hspace).trans hpath
  refine .of_free hc hfree (resourceLocation_run hspace hpath) ?_
  rw [resourceLocation_run hspace' hpath', DosText.back_resourceLocation hc hfree]

/-- Coordinates are read in lockstep, up to the error for a triple that is cut short. -/
theorem coordinates_mirrors (hc : t.start ≤ c) (hne : c.rest ≠ [])
    (hreturn : c.peek ≠ some '\r') : Mirrors t s c coordinates coordinates := by
  have hpaired := DosText.paired_rest hc
  have hsame : Scan.coordinates (t.back c).rest = Scan.coordinates c.rest :=
    Scan.coordinates_unix hpaired
  rcases hscan : Scan.coordinates c.rest with _ | ranges
  · obtain ⟨x, tail, hrest, -, hx⟩ := DosText.exists_of_not_return hne hreturn
    have hrun : Scan.coordinateRun (t.back c).rest =
        unixCount c.rest (Scan.coordinateRun c.rest) := by
      rw [DosText.back_rest, hrest, Scan.coordinateRun_unix hx (hrest ▸ hpaired)]
    refine .of_failed (coordinates_failed hscan) ?_
    rw [coordinates_failed (hsame.trans hscan), hrun,
      DosText.back_advance hc (Scan.coordinateRun_le_length _)]
    rfl
  · obtain ⟨hx, hxy, hy, hyz, hz, -⟩ := Scan.coordinates_eq_some hscan
    have hfree := Scan.returnFree_coordinates hpaired hscan
    refine .of_free hc hfree (coordinates_run hscan) ?_
    rw [coordinates_run (hsame.trans hscan)]
    simp only [Cursor.coordinates, Triple.map, DosText.back_spanTo hc hfree,
      DosText.back_coordinatePart hc hx.le (hfree.of_le (by omega)),
      DosText.back_coordinatePart hc hy.le (hfree.of_le (by omega)),
      DosText.back_coordinatePart hc hz.le hfree]
    rfl

/-! ### Interpolated text -/

/-- The fragments of a bare macro argument are read in lockstep, whatever fuel the loops are
given. -/
theorem bareFragments_mirrors {inKey : Bool} {fuel fuel' : Nat} (hc : t.start ≤ c) :
    Mirrors t s c (bareFragments inKey fuel) (bareFragments inKey fuel') := by
  induction fuel generalizing c fuel' with
  | zero => exact .breakOff _
  | succ fuel ih =>
      rcases fuel' with _ | fuel'
      · exact .breakOffUnix _
      · have hpaired := DosText.paired_rest hc
        have hstart : Scan.startsInterpolation (t.back c).rest =
            Scan.startsInterpolation c.rest := Scan.startsInterpolation_unix hpaired
        have hfragment : Scan.fragment inKey (t.back c).rest = Scan.fragment inKey c.rest :=
          Scan.fragment_unix hpaired
        rw [bareFragments, bareFragments, mirrors_here_bind, hstart, hfragment]
        split
        · rename_i hopen
          refine (interpolation_mirrors hc hopen).bind fun piece d hd => ?_
          refine (ih hd).bind fun fragments d' hd' => ?_
          exact .pure (Fragment.interpolation piece :: fragments) hd'
        · rcases hscan : Scan.fragment inKey c.rest with _ | n
          · exact .pure [] hc
          · have hfree : ReturnFree c.rest n := (Scan.taken_fragment hscan).returnFree rfl
            refine (textRun_mirrors hc hfree).bind fun run d hd => ?_
            refine (ih hd).bind fun fragments d' hd' => ?_
            exact .pure (Fragment.literal run :: fragments) hd'

/-- The fragments within quotes are read in lockstep as long as no return is among them. -/
theorem quotedFragments_mirrors {closes : Char → Bool} {fuel left : Nat} (hc : t.start ≤ c)
    (hquotes : Scan.InQuotes closes c.rest left) (hleft : ReturnFree c.rest left) :
    Mirrors t s c (quotedFragments fuel left) (quotedFragments fuel left) := by
  induction fuel generalizing c left with
  | zero => exact .breakOff _
  | succ fuel ih =>
      have hlen := hleft.le_length
      have htake : (t.back c).rest.take left = c.rest.take left := hleft.take_unix
      rw [quotedFragments]
      split
      · exact .pure [] hc
      · rename_i hpos
        rw [mirrors_here_bind, htake]
        obtain ⟨hle, hin, hstart⟩ := hquotes.text rfl
        generalize Scan.repeated quotedTextStep 0 (c.rest.take left) = n at hle hin hstart ⊢
        have hnext : ∀ {n}, n ≤ left → Scan.InQuotes closes (c.rest.drop n) (left - n) →
            Mirrors t s (c.advance n) (quotedFragments fuel (left - n))
              (quotedFragments fuel (left - n)) := by
          intro n hle hin
          refine ih (hc.trans (Cursor.le_advance (by omega))) ?_ ?_
          · rwa [Cursor.advance_rest]
          · rw [Cursor.advance_rest]
            exact hleft.drop n
        rcases n with _ | n
        · have hstart := hstart (by omega)
          obtain ⟨n, hok, hle, hin⟩ := hquotes.interpolation hstart
          have hcount : c.rest.length - (c.advance n).rest.length = n := by
            rw [Cursor.advance_rest, List.length_drop]
            omega
          have hcount' : (t.back c).rest.length - (t.back (c.advance n)).rest.length = n := by
            have hadvance := Cursor.le_advance (c := c) (hle.trans hlen)
            rw [DosText.back_length_sub hc (hc.trans hadvance), hcount,
              (hleft.of_le hle).unixCount_eq]
          rw [mirrors_bind_iff (interpolation_run hstart hok)
            (interpolation_back_run hc hstart hok), mirrors_here_bind, hcount, hcount']
          refine (hnext hle hin).bind fun fragments d hd => ?_
          exact .pure (Fragment.interpolation (c.interpolation n) :: fragments) hd
        · have hfree := hleft.of_le hle
          rw [mirrors_bind_iff (textRun_run hfree.le_length) (textRun_back_run hc hfree)]
          refine (hnext hle hin).bind fun fragments d hd => ?_
          exact .pure (Fragment.quoted (c.textRun (n + 1)) :: fragments) hd

/-- Bare macro arguments are read in lockstep. -/
theorem interpolated_mirrors {inKey : Bool} (hc : t.start ≤ c) :
    Mirrors t s c (interpolated inKey) (interpolated inKey) := by
  have hpaired := DosText.paired_rest hc
  have hquote : Scan.startsQuoted (t.back c).rest = Scan.startsQuoted c.rest :=
    Scan.startsQuoted_unix hpaired
  rw [interpolated, mirrors_here_bind, hquote]
  split
  · rename_i hquoted
    have hsame : Scan.quoted (t.back c).rest = _ := Scan.quoted_unix hpaired hquoted
    rcases hscan : Scan.quoted c.rest with error | q
    · rw [hscan] at hsame
      rw [Mirrors, bind_failed (scan_failed hscan), bind_failed (scan_failed hsame),
        ← DosText.error_at hc (Scan.quoted_eq_error hquoted hscan)]
      exact .failed
    · rw [hscan] at hsame
      have hfree := Scan.returnFree_quoted hpaired hquoted hscan
      have hlen := hfree.le_length
      obtain ⟨closes, hpos, hin⟩ := Scan.InQuotes.of_quoted hquoted hscan
      have hcount : q.count = q.before + 1 := rfl
      have hone : ReturnFree c.rest 1 := hfree.of_le (by omega)
      have hbody : ReturnFree (c.advance 1).rest (q.before - 1) := by
        rw [Cursor.advance_rest]
        exact (hfree.of_le (Nat.le_succ _)).drop 1
      rw [← Cursor.advance_rest] at hin
      rw [mirrors_bind_iff (scan_run hscan) (scan_run hsame),
        mirrors_take_bind hc (by omega) hone.unixCount_eq.symm]
      have hnext : t.start ≤ c.advance 1 := hc.trans (Cursor.le_advance (by omega))
      have hend : t.start ≤ c.advance q.count := hc.trans (Cursor.le_advance hlen)
      refine (quotedFragments_mirrors hnext hin hbody).bind fun fragments d _ => ?_
      rw [DosText.back_advance_of_free hc hfree, mirrors_moveTo_bind,
        DosText.back_quoteAt hc]
      refine (Mirrors.spanFrom rfl hend).bind fun place d' hd' => ?_
      exact .pure (⟨fragments, quoteAt c, place⟩ : Interpolated) hd'
  · refine (bareFragments_mirrors hc).bind fun fragments d hd => ?_
    refine (Mirrors.spanFrom rfl hd).bind fun place d' hd' => ?_
    exact .pure (⟨fragments, .bare, place⟩ : Interpolated) hd'

end Parser

end Mcfunction
