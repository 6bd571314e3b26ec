import Mcfunction.Proofs.Parser.Recovery

/-!
# What the Parsers of Leaves Read

A leaf is read in certain steps once the recognizers have had their say, so its parser is
described by equations: what it gives and where it stops, or with which error it fails. Only
interpolated text is read piece by piece.

## Main results

* `textRun_run`, `quotedString_run`, `number_run`, `resourceLocation_run`, `interpolation_run`,
  `coordinates_run`: the leaves that the recognizers find.
* `interpolated_steady`: interpolated text that the recognizers announce is read, or an
  interpolation in it is not closed.
-/

namespace Mcfunction

namespace Scan

variable {chars : List Char} {m n : Nat}

/-! ### Looking ahead inside quotes -/

/-- The characters that a string still has before its closing quote. -/
def InQuotes (closes : Char → Bool) (chars : List Char) (left : Nat) : Prop :=
  ∃ before interpolated q, quotedFrom closes before interpolated 0 chars = .ok q ∧
    q.before = before + left

/-- What is left of a string before its quote is on one line, with the quote. -/
theorem InQuotes.inline {closes : Char → Bool} {left : Nat} (h : InQuotes closes chars left) :
    Inline chars (left + 1) := by
  obtain ⟨before, interpolated, q, hq, hleft⟩ := h
  obtain ⟨k, _, _, hk, hline, -⟩ := quotedFrom_eq_ok (.zero _) hq
  obtain rfl : k = left := by omega
  exact hline

/-- What follows the opening quote. -/
theorem InQuotes.of_quoted {q : Quoted} (hstart : startsQuoted chars)
    (h : quoted chars = .ok q) :
    ∃ closes, 0 < q.before ∧ InQuotes closes (chars.drop 1) (q.before - 1) := by
  have hbody : ∀ {quote body}, quote ≠ '\n' → quoted (quote :: body) = .ok q →
      0 < q.before ∧ InQuotes (· == quote) body (q.before - 1) := by
    intro quote body hne h
    obtain ⟨k, tail, hbefore, -⟩ := quoted_eq_ok hne h
    exact ⟨by omega, 1, false, q, h, by omega⟩
  obtain ⟨body, rfl | rfl⟩ := startsQuoted_iff.mp hstart
  · exact ⟨_, hbody (by decide) h⟩
  · exact ⟨_, hbody (by decide) h⟩

/-- Inside quotes an interpolation is closed before the closing quote. -/
theorem InQuotes.interpolation {closes : Char → Bool} {left : Nat}
    (h : InQuotes closes chars left) (hstart : startsInterpolation chars) :
    ∃ n, Scan.interpolation chars = .ok n ∧ n ≤ left ∧
      InQuotes closes (chars.drop n) (left - n) := by
  obtain ⟨before, interpolated, q, hq, hleft⟩ := h
  obtain ⟨body, rfl⟩ := startsInterpolation_iff.mp hstart
  rw [quotedFrom.eq_def] at hq
  simp only [Char.reduceBEq, Bool.false_eq_true, if_false, hstart, if_true] at hq
  split at hq
  · cases hq
  · rename_i n hn
    obtain ⟨k, tail, rfl, hline, -⟩ := interpolation_eq_ok hstart hn
    have hlen := hline.of_cons.le_length
    rw [show k + 3 - 1 = k + 2 from rfl, quotedFrom_pending hlen] at hq
    obtain ⟨j, _, _, hj, -⟩ := quotedFrom_eq_ok (.zero _) hq
    refine ⟨k + 3, hn, by omega, before + 1 + (k + 2), true, q, ?_, by omega⟩
    rw [← hq, List.drop_succ_cons]

/-- An escape in a string takes two of the characters before the quote. -/
theorem InQuotes.escape {closes : Char → Bool} {left : Nat}
    (h : InQuotes closes ('\\' :: chars) left) :
    2 ≤ left ∧ InQuotes closes (chars.drop 1) (left - 2) := by
  obtain ⟨before, interpolated, q, hq, hleft⟩ := h
  rw [quotedFrom.eq_def] at hq
  simp only [Char.reduceBEq, Bool.false_eq_true, if_false, if_true] at hq
  split at hq
  · cases hq
  · cases hq
  · cases hq
  · rename_i hnil _ _
    have hlen : 1 ≤ chars.length := List.length_pos_iff.mpr hnil
    rw [quotedFrom_pending hlen] at hq
    obtain ⟨k, _, _, hk, -⟩ := quotedFrom_eq_ok (.zero _) hq
    exact ⟨by omega, before + 1 + 1, interpolated, q, hq, by omega⟩

/-- Any other character takes one of them. -/
theorem InQuotes.char {closes : Char → Bool} {x : Char} {left : Nat}
    (h : InQuotes closes (x :: chars) (left + 1)) (hslash : x ≠ '\\')
    (hstart : startsInterpolation (x :: chars) = false) : InQuotes closes chars left := by
  obtain ⟨before, interpolated, q, hq, hleft⟩ := h
  refine ⟨before + 1, interpolated, q, ?_, by omega⟩
  rw [quotedFrom.eq_def] at hq
  simp only [hstart, Bool.false_eq_true, if_false] at hq
  split at hq
  · cases hq
  · rw [if_neg (by simpa using hslash)] at hq
    split at hq
    · -- the closing quote has no characters before it
      cases hq
      simp at hleft
    · exact hq

/-- An interpolation that starts in the front of a text starts in the text. -/
theorem startsInterpolation_of_take (h : startsInterpolation (chars.take n)) :
    startsInterpolation chars := by
  obtain ⟨body, hbody⟩ := startsInterpolation_iff.mp h
  rw [← List.take_append_drop n chars, hbody]
  rfl

/-- Inside quotes a piece of text stays before the closing quote. -/
theorem InQuotes.textStep {closes : Char → Bool} {left : Nat} (h : InQuotes closes chars left)
    (hpos : 0 < left) :
    Parser.quotedTextStep (chars.take left) = 0 ∧ startsInterpolation chars ∨
      0 < Parser.quotedTextStep (chars.take left) ∧
        Parser.quotedTextStep (chars.take left) ≤ left ∧
        InQuotes closes (chars.drop (Parser.quotedTextStep (chars.take left)))
          (left - Parser.quotedTextStep (chars.take left)) := by
  have hlen := h.inline.le_length
  obtain ⟨left, rfl⟩ : ∃ k, left = k + 1 := ⟨left - 1, by omega⟩
  obtain ⟨x, rest, rfl⟩ := List.exists_cons_of_length_pos (Nat.zero_lt_of_lt hlen)
  by_cases hslash : x = '\\'
  · subst hslash
    obtain ⟨htwo, hrest⟩ := h.escape
    rw [List.take_succ_cons]
    exact .inr ⟨Nat.two_pos, htwo, hrest⟩
  · have hstep : Parser.quotedTextStep ((x :: rest).take (left + 1)) =
        if startsInterpolation ((x :: rest).take (left + 1)) then 0 else 1 := by
      rw [List.take_succ_cons]
      simp [Parser.quotedTextStep, hslash]
    rw [hstep]
    by_cases hstart : startsInterpolation (x :: rest)
    · obtain ⟨n, hn, hle, -⟩ := h.interpolation hstart
      obtain ⟨k, _, rfl, -⟩ := interpolation_eq_ok hstart hn
      obtain ⟨body, hbody⟩ := startsInterpolation_iff.mp hstart
      obtain ⟨left, rfl⟩ : ∃ k, left = k + 1 := ⟨left - 1, by omega⟩
      rw [hbody]
      exact .inl ⟨rfl, rfl⟩
    · have hfront : ¬ startsInterpolation ((x :: rest).take (left + 1)) :=
        fun h => hstart (startsInterpolation_of_take h)
      rw [if_neg hfront]
      exact .inr ⟨Nat.one_pos, hpos, h.char hslash (Bool.eq_false_iff.mpr hstart)⟩

/-- Inside quotes text reaches up to the next interpolation or the closing quote. -/
theorem InQuotes.text {closes : Char → Bool} {left n : Nat} (h : InQuotes closes chars left)
    (hn : repeated Parser.quotedTextStep 0 (chars.take left) = n) :
    n ≤ left ∧ InQuotes closes (chars.drop n) (left - n) ∧
      (n < left → startsInterpolation (chars.drop n)) := by
  induction left using Nat.strong_induction_on generalizing chars n with
  | _ left ih =>
      rcases Nat.eq_zero_or_pos left with rfl | hpos
      · obtain rfl : n = 0 := by simpa using hn.symm
        exact ⟨le_rfl, h, fun hlt => absurd hlt (lt_irrefl 0)⟩
      · rcases h.textStep hpos with ⟨hzero, hstart⟩ | ⟨hstep, hle, hnext⟩
        · rw [repeated_of_step_zero hzero] at hn
          subst hn
          exact ⟨Nat.zero_le _, h, fun _ => hstart⟩
        · have hlen := h.inline.le_length
          rw [repeated_of_step_pos hstep (by rw [List.length_take]; omega),
            List.drop_take] at hn
          obtain ⟨hle', hin, hstart⟩ := ih _ (by omega) hnext rfl
          rw [List.drop_drop] at hin hstart
          subst hn
          exact ⟨by omega, by rwa [Nat.sub_add_eq], fun hlt => hstart (by omega)⟩

end Scan

namespace Cursor

variable {c : Cursor} {n : Nat}

/-- A character of one byte moves the offset by one. -/
theorem advance_succ_offset {x : Char} {tail : List Char} (h : c.rest.drop n = x :: tail)
    (hx : x.utf8Size = 1) : (c.advance (n + 1)).offset = (c.advance n).offset + 1 := by
  have hlen : n < c.rest.length := by
    by_contra hle
    rw [List.drop_eq_nil_of_le (by omega)] at h
    cases h
  have hnext := advance_offset (c := c.advance n) (n := 1) (by rw [advance_rest, h]; simp)
  rw [advance_advance, advance_rest, h] at hnext
  simpa [hx] using hnext

/-- The offset of a place is that of no characters further on. -/
theorem offset_eq_advance_zero (c : Cursor) : c.offset = (c.advance 0).offset := by
  rw [advance_zero]

/-- A character of one byte adds one to the offset. -/
theorem advance_one_offset {x : Char} {tail : List Char} (h : c.rest = x :: tail)
    (hx : x.utf8Size = 1) : (c.advance 1).offset = c.offset + 1 := by
  rw [advance_succ_offset (n := 0) (by simpa using h) hx, advance_zero]

end Cursor

namespace Parser

variable {s : Settings} {c d origin : Cursor} {limit n : Nat}

/-! ### Failing at a character -/

/-- The next character is cut out as text. -/
theorem slice_char_run : slice c c.offset c.charEnd s c = .done (c.rest.take 1) [] c := by
  by_cases hne : c.rest = []
  · have hend : c.charEnd = c.offset := by simp [Cursor.charEnd, hne]
    rw [slice, hend, Cursor.slice?_offset le_rfl le_rfl, hne]
    rfl
  · rw [Cursor.charEnd_eq hne]
    exact slice_run c.offset_eq_advance_zero (Nat.zero_le _) (List.length_pos_iff.mpr hne)

/-- At the end of a line nothing is found, whether a line break stands there or not. -/
theorem unexpected_run_atLineEnd {α : Type} {wanted : Wanted} (hline : Scan.atLineEnd c.rest) :
    (unexpected wanted : Parser α) s c =
      .failed ⟨.unexpectedToken wanted none, c.spanTo c⟩ [] := by
  have hstatement : c.offsetAfter (Scan.statement c.rest) = c.offset := by
    rw [Scan.statement_of_atLineEnd hline]
    rfl
  have hstop : max (min c.charEnd c.offset) c.offset = c.offset :=
    max_eq_right (min_le_right _ _)
  rw [unexpected, bind_done here_run, bind_done slice_char_run, hstatement, hstop,
    failAt_run (le_refl c.offset)]
  rcases hrest : c.rest with _ | ⟨x, rest⟩
  · rfl
  · obtain rfl : x = '\n' := by simpa [hrest, Scan.atLineEnd] using hline
    rfl

/-- Elsewhere the character is found, as far as it belongs to the statement. -/
theorem unexpected_run {α : Type} {wanted : Wanted} {x : Char} (hpeek : c.peek = some x)
    (hx : x ≠ '\n') :
    (unexpected wanted : Parser α) s c =
      .failed ⟨.unexpectedToken wanted (some x),
        c.offset, max (min c.charEnd c.statementEnd.offset) c.offset⟩ [] := by
  obtain ⟨tail, hrest⟩ := List.head?_eq_some_iff.mp hpeek
  have hstatement : c.offsetAfter (Scan.statement c.rest) = c.statementEnd.offset := rfl
  rw [unexpected, bind_done here_run, bind_done slice_char_run, hstatement,
    failAt_run (le_max_right _ _), hrest]
  split
  · rename_i hnewline
    exact absurd (List.cons.inj hnewline).1 hx
  · rfl

/-! ### Leaves of certain length -/

/-- Text as it stands is read. -/
theorem textRun_run (h : n ≤ c.rest.length) :
    textRun n s c = .done (c.textRun n) [] (c.advance n) := by
  rw [textRun, bind_done here_run, Cursor.offsetAfter,
    bind_done (sliceText_run c.offset_eq_advance_zero (Nat.zero_le _) h),
    bind_done (take_run h), bind_done (spanFrom_run (Cursor.le_advance h))]
  rfl

/-- A bare string is read. -/
theorem bareString_run (h : n ≤ c.rest.length) :
    bareString n s c = .done (c.bareString n) [] (c.advance n) := by
  rw [bareString, bind_done (textRun_run h)]
  rfl

/-- A quoted string is read to its closing quote. -/
theorem quotedString_run {q : Scan.Quoted} (hstart : Scan.startsQuoted c.rest)
    (h : Scan.quoted c.rest = .ok q) :
    quotedString s c = .done (c.quotedString q) [] (c.advance q.count) := by
  obtain ⟨x, body, hrest, hx, hsize⟩ :
      ∃ x body, c.rest = x :: body ∧ x ≠ '\n' ∧ x.utf8Size = 1 := by
    obtain ⟨body, hrest | hrest⟩ := Scan.startsQuoted_iff.mp hstart
    · exact ⟨_, body, hrest, by decide, rfl⟩
    · exact ⟨_, body, hrest, by decide, rfl⟩
  have hquoted := h
  rw [hrest] at hquoted
  obtain ⟨k, tail, hbefore, hline, hclose⟩ := Scan.quoted_eq_ok hx hquoted
  have hend : (c.advance q.count).offset = (c.advance q.before).offset + 1 := by
    have hdrop : c.rest.drop q.before = x :: tail := by
      rw [hrest, hbefore, List.drop_succ_cons, hclose]
    exact Cursor.advance_succ_offset hdrop hsize
  have hlen : q.count ≤ c.rest.length := hrest ▸ hline.le_length
  have hcount : q.count = q.before + 1 := rfl
  rw [quotedString, bind_done here_run, bind_done (scan_run h), bind_done (take_run hlen),
    bind_done here_run, bind_done (offsetBefore_run (by omega)), hend, Nat.add_sub_cancel,
    bind_done (sliceText_run (Cursor.advance_one_offset hrest hsize).symm (by omega) (by omega)),
    bind_done (spanFrom_run (Cursor.le_advance hlen))]
  rfl

/-- What is wrong with a quoted string is the error. -/
theorem quotedString_failed {error : Scan.Error} (h : Scan.quoted c.rest = .error error) :
    quotedString s c = .failed (error.at c) [] := by
  rw [quotedString, bind_done here_run, bind_failed (scan_failed h)]

/-- An interpolation is read to its closing parenthesis. -/
theorem interpolation_run (hstart : Scan.startsInterpolation c.rest)
    (h : Scan.interpolation c.rest = .ok n) :
    interpolation s c = .done (c.interpolation n) [] (c.advance n) := by
  obtain ⟨body, hrest⟩ := Scan.startsInterpolation_iff.mp hstart
  obtain ⟨k, tail, rfl, hline, hclose⟩ := Scan.interpolation_eq_ok hstart h
  have hopen : c.offset + 2 = (c.advance 2).offset := by
    rw [Cursor.advance_succ_offset (n := 1) (by rw [hrest]; rfl) rfl,
      Cursor.advance_one_offset hrest rfl]
  have hend : (c.advance (k + 3)).offset = (c.advance (k + 2)).offset + 1 :=
    Cursor.advance_succ_offset hclose rfl
  have hlen := hline.le_length
  rw [interpolation, bind_done here_run, bind_done (scan_run h), bind_done (take_run hlen),
    bind_done here_run, bind_done (offsetBefore_run (by omega)), hend, Nat.add_sub_cancel,
    bind_done (sliceText_run hopen (by omega) (by omega)),
    bind_done (spanFrom_run (Cursor.le_advance hlen))]
  rfl

/-- What is wrong with an interpolation is the error. -/
theorem interpolation_failed {error : Scan.Error}
    (h : Scan.interpolation c.rest = .error error) :
    interpolation s c = .failed (error.at c) [] := by
  rw [interpolation, bind_done here_run, bind_failed (scan_failed h)]

/-- A number that is a whole word is read with its type letter. -/
theorem number_run {suffix : Option Char} (h : Scan.wholeNumber c.rest = some (n, suffix)) :
    number n suffix s c = .done (c.number n suffix) [] (c.advance n) := by
  have hnumber := Scan.wholeNumber_eq_some h
  have hlen := (Scan.inline_suffixedNumber hnumber).le_length
  have hstop : (c.textRun n).span.stop = (c.advance n).offset := rfl
  rw [number, bind_done here_run, bind_done (textRun_run hlen), hstop]
  rcases Scan.suffixedNumber_eq_some hnumber with ⟨-, rfl⟩ | ⟨m, x, tail, rfl, rfl, -, hdrop, hx, -⟩
  · rw [Option.isSome_none, if_neg Bool.false_ne_true, pure_eq, bind_done (pure_run _)]
    dsimp only
    rw [bind_done (slice_run c.offset_eq_advance_zero (Nat.zero_le _) hlen)]
    rfl
  · have hend : (c.advance (m + 1)).offset = (c.advance m).offset + 1 :=
      Cursor.advance_succ_offset hdrop hx
    rw [Option.isSome_some, if_pos rfl, hend, bind_done (offsetBefore_run (by omega)),
      Nat.add_sub_cancel]
    dsimp only
    rw [bind_done (slice_run c.offset_eq_advance_zero (Nat.zero_le _) (by omega))]
    rfl

/-- A resource location is read with its namespace and its path. -/
theorem resourceLocation_run {space path : Nat}
    (hspace : Scan.resourceNamespace c.rest = some space)
    (hpath : Scan.path (c.rest.drop (space + 1)) = some path) :
    resourceLocation space path s c =
      .done (c.resourceLocation space path) [] (c.advance (space + 1 + path)) := by
  obtain ⟨-, tail, hcolon⟩ := Scan.resourceNamespace_eq_some hspace
  have hlen := (Scan.inline_location hspace hpath).le_length
  have hafter : (c.advance space).offset + 1 = (c.advance (space + 1)).offset :=
    (Cursor.advance_succ_offset hcolon rfl).symm
  rw [resourceLocation, bind_done here_run, bind_done (take_run hlen), bind_done here_run,
    Cursor.offsetAfter,
    bind_done (sliceText_run c.offset_eq_advance_zero (Nat.zero_le _) (by omega)),
    bind_done (sliceText_run hafter (by omega) hlen),
    bind_done (spanFrom_run (Cursor.le_advance hlen))]
  rfl

/-! ### Coordinates -/

/-- A part of coordinates is read from its range. -/
theorem coordinatePartAt_run {range : Nat × Nat} (hle : range.1 ≤ range.2)
    (h : range.2 ≤ c.rest.length) :
    coordinatePartAt c range s d = .done (c.coordinatePart range) [] d := by
  rw [coordinatePartAt, Cursor.offsetAfter, Cursor.offsetAfter,
    bind_done (span_run (Cursor.offset_le_of_le (Cursor.advance_le_advance hle h))),
    bind_done (slice_run rfl hle h)]
  rfl

/-- Three parts of coordinates are read together. -/
theorem coordinates_run {ranges : Triple (Nat × Nat)}
    (h : Scan.coordinates c.rest = some ranges) :
    coordinates s c = .done (c.coordinates ranges) [] (c.advance ranges.z.2) := by
  obtain ⟨hx, hxy, hy, hyz, hz, hline⟩ := Scan.coordinates_eq_some h
  have hlen := hline.le_length
  rw [coordinates, bind_done here_run]
  simp only [h]
  rw [bind_done (coordinatePartAt_run hx.le (by omega)),
    bind_done (coordinatePartAt_run hy.le (by omega)),
    bind_done (coordinatePartAt_run hz.le hlen), bind_done (take_run hlen),
    bind_done (spanFrom_run (Cursor.le_advance hlen))]
  rfl

/-- Without three parts the error spans what looks like coordinates. -/
theorem coordinates_failed (h : Scan.coordinates c.rest = none) :
    coordinates s c = .failed ⟨.malformedCoordinates,
      c.spanTo (c.advance (Scan.coordinateRun c.rest))⟩ [] := by
  rw [coordinates, bind_done here_run]
  simp only [h]
  exact failAt_run (Cursor.offset_le_of_le
    (Cursor.le_advance (Scan.coordinateRun_le_length _)))

/-- Coordinates are read or refused whatever the settings are. -/
theorem coordinates_steady (horigin : Within origin c) :
    Steady origin c coordinates (fun triple d => ∃ ranges,
      Scan.coordinates c.rest = some ranges ∧ triple = c.coordinates ranges ∧
        d = c.advance ranges.z.2) := by
  rcases hscan : Scan.coordinates c.rest with _ | ranges
  · exact .of_failed (fun _ => coordinates_failed hscan)
      ⟨c, _, horigin, Cursor.le_advance (Scan.coordinateRun_le_length _), rfl⟩
  · exact .of_done (fun _ => coordinates_run hscan) ⟨ranges, rfl, rfl, rfl⟩

/-! ### Strings and interpolations that may be broken -/

/-- An error that a recognizer finds is in the statement. -/
theorem error_at_startsIn {error : Scan.Error} (horigin : Within origin c)
    (hstart : Scan.Inline c.rest error.start) (hstop : error.stop ≤ c.rest.length) :
    (error.at c).StartsIn origin :=
  ⟨c.advance error.start, c.advance error.stop, horigin.trans (.inline hstart),
    Cursor.advance_le_advance error.ordered hstop, rfl⟩

/-- A quoted string is read or refused whatever the settings are. -/
theorem quotedString_steady (horigin : Within origin c) (hstart : Scan.startsQuoted c.rest) :
    Steady origin c quotedString (fun literal d => ∃ q, Scan.quoted c.rest = .ok q ∧
      literal = c.quotedString q ∧ d = c.advance q.count) := by
  rcases hq : Scan.quoted c.rest with error | q
  · exact .of_failed (fun _ => quotedString_failed hq)
      (error_at_startsIn horigin (Scan.inline_quoted_error hstart hq)
        (Scan.quoted_eq_error hstart hq))
  · exact .of_done (fun _ => quotedString_run hstart hq) ⟨q, rfl, rfl, rfl⟩

/-- An interpolation is read or refused whatever the settings are. -/
theorem interpolation_steady (horigin : Within origin c)
    (hstart : Scan.startsInterpolation c.rest) :
    Steady origin c interpolation (fun piece d => ∃ n,
      Scan.interpolation c.rest = .ok n ∧ piece = c.interpolation n ∧ d = c.advance n) := by
  rcases hn : Scan.interpolation c.rest with error | n
  · have hzero := Scan.interpolation_error_start hn
    exact .of_failed (fun _ => interpolation_failed hn)
      (error_at_startsIn horigin (hzero ▸ .zero _) (Scan.interpolation_eq_error hstart hn))
  · exact .of_done (fun _ => interpolation_run hstart hn) ⟨n, rfl, rfl, rfl⟩

/-! ### Interpolated text -/

/-- The pieces outside quotes; each turn of the loop takes a character. -/
theorem bareFragments_steady {inKey : Bool} {fuel : Nat} (horigin : Within origin c)
    (hfuel : c.rest.length < fuel) :
    Steady origin c (bareFragments inKey fuel) (FragmentsAt inKey c) := by
  induction fuel generalizing c with
  | zero => exact absurd hfuel (Nat.not_lt_zero _)
  | succ fuel ih =>
      have hnext : ∀ {n}, 0 < n → Scan.Inline c.rest n →
          Steady origin (c.advance n) (bareFragments inKey fuel)
            (FragmentsAt inKey (c.advance n)) := by
        intro n hpos hline
        have hle := hline.le_length
        refine ih (horigin.trans (.inline hline)) ?_
        rw [Cursor.advance_rest, List.length_drop]
        omega
      rw [bareFragments, steady_bind_iff fun _ => here_run]
      by_cases hstart : Scan.startsInterpolation c.rest
      · rw [if_pos hstart]
        refine (interpolation_steady horigin hstart).bind ?_
        rintro _ _ ⟨n, hn, rfl, rfl⟩
        obtain ⟨hpos, hline⟩ := Scan.inline_interpolation hstart hn
        exact (hnext hpos hline).bind fun _ _ h => .pure (.interpolation hstart hn h)
      · rw [if_neg hstart]
        rw [Bool.not_eq_true] at hstart
        rcases hn : Scan.fragment inKey c.rest with _ | n
        · exact .pure (.nil hstart hn)
        · have hline := Scan.inline_fragment hn
          refine (steady_bind_iff fun _ => textRun_run hline.le_length).mpr ?_
          exact (hnext (Scan.fragment_pos hn) hline).bind fun _ _ h =>
            .pure (.literal hstart hn h)

/-- The pieces inside quotes; each turn of the loop takes a character. None of them can fail, since
every interpolation there is closed before the quote. -/
theorem quotedFragments_run {closes : Char → Bool} {fuel left : Nat}
    (hquotes : Scan.InQuotes closes c.rest left) (hfuel : left < fuel) :
    ∃ fragments, QuotedFragmentsAt left c fragments (c.advance left) ∧
      ∀ s, quotedFragments fuel left s c = .done fragments [] (c.advance left) := by
  induction fuel generalizing c left with
  | zero => exact absurd hfuel (Nat.not_lt_zero _)
  | succ fuel ih =>
      have hlen := hquotes.inline.le_length
      by_cases hleft : left = 0
      · subst hleft
        refine ⟨[], by simpa using QuotedFragmentsAt.nil, fun s => ?_⟩
        rw [quotedFragments, if_pos rfl, Cursor.advance_zero]
        rfl
      · have hnext : ∀ {n}, 0 < n → n ≤ left → Scan.InQuotes closes (c.rest.drop n) (left - n) →
            ∃ fragments, QuotedFragmentsAt (left - n) (c.advance n) fragments (c.advance left) ∧
              ∀ s, quotedFragments fuel (left - n) s (c.advance n) =
                .done fragments [] (c.advance left) := by
          intro n hpos hle hin
          have hadvance : (c.advance n).advance (left - n) = c.advance left := by
            rw [Cursor.advance_advance, Nat.add_sub_cancel' hle]
          rw [← hadvance]
          exact ih (by rwa [Cursor.advance_rest]) (by omega)
        obtain ⟨hle, hin, hstart⟩ := hquotes.text rfl
        generalize hn : Scan.repeated quotedTextStep 0 (c.rest.take left) = n at hle hin hstart
        rcases n with _ | n
        · have hstart := hstart (by omega)
          obtain ⟨n, hok, hle, hin⟩ := hquotes.interpolation hstart
          obtain ⟨hpos, hline⟩ := Scan.inline_interpolation hstart hok
          obtain ⟨fragments, hat, hrun⟩ := hnext hpos hle hin
          have hcount : c.rest.length - (c.advance n).rest.length = n := by
            rw [Cursor.advance_rest, List.length_drop]
            omega
          refine ⟨_, .interpolation hstart hok hle hat, fun s => ?_⟩
          rw [quotedFragments, if_neg hleft, bind_done here_run, hn]
          dsimp only
          rw [bind_done (interpolation_run hstart hok), bind_done here_run, hcount,
            bind_done (hrun s)]
          rfl
        · obtain ⟨fragments, hat, hrun⟩ := hnext (Nat.succ_pos n) hle hin
          refine ⟨_, .quoted (Nat.succ_pos n) hle hn hat, fun s => ?_⟩
          rw [quotedFragments, if_neg hleft, bind_done here_run, hn]
          dsimp only
          rw [bind_done (textRun_run (by omega)), bind_done (hrun s)]
          rfl

/-- Text between quotes is read to its end. -/
theorem interpolated_quoted_run {inKey : Bool} {q : Scan.Quoted}
    (hquoted : Scan.startsQuoted c.rest) (hq : Scan.quoted c.rest = .ok q) :
    ∃ fragments, QuotedFragmentsAt (q.before - 1) (c.advance 1) fragments (c.advance q.before) ∧
      ∀ s, interpolated inKey s c =
        .done ⟨fragments, quoteAt c, c.spanTo (c.advance q.count)⟩ [] (c.advance q.count) := by
  have hlen := (Scan.inline_quoted hquoted hq).le_length
  obtain ⟨closes, hpos, hin⟩ := Scan.InQuotes.of_quoted hquoted hq
  have hcount : q.count = q.before + 1 := rfl
  rw [← Cursor.advance_rest] at hin
  obtain ⟨fragments, hat, hrun⟩ := quotedFragments_run hin (by omega : _ < q.before + 1)
  rw [Cursor.advance_advance, Nat.add_sub_cancel' (by omega)] at hat
  refine ⟨fragments, hat, fun s => ?_⟩
  have hmove : ∀ d, moveTo (c.advance q.count) s d = .done () [] (c.advance q.count) :=
    fun _ => rfl
  rw [interpolated, bind_done here_run, if_pos hquoted, bind_done (scan_run hq),
    bind_done (take_run (by omega)), bind_done (hrun s), bind_done (hmove _),
    bind_done (spanFrom_run (Cursor.le_advance hlen))]
  rfl

/-- A character that may stand before the first interpolation belongs to a fragment. -/
theorem fragmentStep_of_isLeadChar {inKey : Bool} {x : Char} (chars : List Char)
    (h : Scan.isLeadChar inKey x) : Scan.fragmentStep inKey (x :: chars) = 1 := by
  have hne : ∀ y : Char, Scan.isLeadChar inKey y = false → x ≠ y := by
    rintro y hy rfl
    rw [h] at hy
    cases hy
  have hends : Scan.endsFragment x = false := by
    unfold Scan.endsFragment
    split <;> first | rfl | exact absurd h (by cases inKey <;> decide)
  have hkey : (inKey && Scan.endsKeyFragment x) = false := by
    cases inKey with
    | false => rfl
    | true =>
        unfold Scan.endsKeyFragment
        split <;> first | rfl | exact absurd h (by decide)
  have hstart : Scan.startsInterpolation (x :: chars) = false := by
    rw [Bool.eq_false_iff]
    intro hstart
    obtain ⟨_, heq⟩ := Scan.startsInterpolation_iff.mp hstart
    exact hne '$' (by cases inKey <;> decide) (List.cons.inj heq).1
  have hcont : Scan.continuation (x :: chars) = none := by
    rcases hcont : Scan.continuation (x :: chars) with _ | n
    · rfl
    · obtain ⟨_, _, heq, -⟩ := Scan.continuation_eq_some hcont
      exact absurd (List.cons.inj heq).1 (hne '\\' (by cases inKey <;> decide))
  simp [Scan.fragmentStep, hends, hkey, hstart, hcont]

/-- What the recognizers announce as interpolated text is not empty. -/
theorem lt_of_startsInterpolated {inKey : Bool} {fragments : List Fragment}
    (hstart : Scan.startsInterpolated inKey c.rest) (hquoted : Scan.startsQuoted c.rest = false)
    (h : FragmentsAt inKey c fragments d) : c < d := by
  cases h with
  | nil hnone hfragment =>
      exfalso
      rw [Scan.startsInterpolated, hquoted, if_neg Bool.false_ne_true] at hstart
      rcases hrest : c.rest with _ | ⟨x, rest⟩
      · rw [hrest] at hstart
        cases hstart
      · rw [hrest] at hstart hnone hfragment
        by_cases hx : Scan.isLeadChar inKey x
        · have hstep := fragmentStep_of_isLeadChar rest hx
          rw [Scan.fragment, Scan.repeated_of_step_pos (by omega) (by simp [hstep]), hstep,
            Nat.add_comm] at hfragment
          cases hfragment
        · rw [Scan.run_cons, if_neg hx, List.drop_zero, hnone] at hstart
          cases hstart
  | interpolation hstart hok h =>
      obtain ⟨hpos, hline⟩ := Scan.inline_interpolation hstart hok
      exact (Cursor.lt_advance hpos hline.le_length).trans_le h.within.le
  | literal _ hn h =>
      exact (Cursor.lt_advance (Scan.fragment_pos hn) (Scan.inline_fragment hn).le_length).trans_le
        h.within.le

/-- Interpolated text that the recognizers announce. -/
theorem interpolated_steady {inKey : Bool} (horigin : Within origin c)
    (hstart : Scan.startsInterpolated inKey c.rest) :
    Steady origin c (interpolated inKey) (InterpolatedAt inKey c) := by
  by_cases hquoted : Scan.startsQuoted c.rest
  · rw [Scan.startsInterpolated, if_pos hquoted] at hstart
    rcases hq : Scan.quoted c.rest with error | q
    · rw [hq] at hstart
      cases hstart
    · rw [hq] at hstart
      obtain ⟨fragments, hat, hrun⟩ := interpolated_quoted_run hquoted hq
      exact .of_done hrun (.quoted hquoted hq hstart hat)
  · rw [interpolated, steady_bind_iff fun _ => here_run, if_neg hquoted]
    rw [Bool.not_eq_true] at hquoted
    refine (bareFragments_steady horigin (Nat.lt_succ_self _)).bind fun fragments d h => ?_
    rw [steady_bind_iff fun _ => spanFrom_run h.within.le]
    exact .pure (.bare hquoted (lt_of_startsInterpolated hstart hquoted h) h)

end Parser

end Mcfunction
