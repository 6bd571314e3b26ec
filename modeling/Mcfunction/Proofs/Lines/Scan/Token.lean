import Mcfunction.Parser.Container
import Mcfunction.Proofs.Lines.Scan.Basic

/-!
# Quotes and Brackets at the End of a Line

Neither a quoted string nor an interpolation goes on in the next line, and recovery does not
look there for the bracket that closes a list: each of these recognizers finds in a text what
it finds if a line break and more lines follow.

## Main results

* `quoted_append`, `interpolation_append`: strings and interpolations, with the faults of those
  that are not closed.
* `balancedChunk_append`: what recovery skips.
-/

namespace Mcfunction.Scan

variable {chars tail : List Char} {m n : Nat} {p : Char → Bool}

/-! ### Interpolations and quotes -/

/-- Whether an interpolation starts does not depend on the next line. -/
theorem startsInterpolation_append (h : Ends chars tail) :
    startsInterpolation (chars ++ tail) = startsInterpolation chars := by
  rcases chars with _ | ⟨c, _ | ⟨d, chars⟩⟩
  · cases h <;> rfl
  · by_cases hc : c = '$'
    · subst hc
      cases h <;> rfl
    · simp [startsInterpolation, hc]
  · by_cases hc : c = '$' <;> by_cases hd : d = '(' <;> simp [startsInterpolation, hc, hd]

/-- An interpolation does not reach the next line, whether it is closed or not. -/
theorem interpolation_append (h : Ends chars tail) (hstart : startsInterpolation chars) :
    interpolation (chars ++ tail) = interpolation chars := by
  obtain ⟨body, rfl⟩ := startsInterpolation_iff.mp hstart
  have hbody : Ends body tail := h.of_cons.of_cons
  have hrun := run_append (p := fun c => c != ')' && c != '\n') (by decide) hbody
  have hlen := run_le_length (fun c => c != ')' && c != '\n') body
  have hrest := hbody.drop (run (fun c => c != ')' && c != '\n') body)
  simp only [List.cons_append, interpolation, openerCount_dollar, List.drop_succ_cons,
    List.drop_zero, hrun, drop_append hlen, take_append hlen]
  rcases hdrop : body.drop (run (fun c => c != ')' && c != '\n') body) with _ | ⟨c, rest⟩
  · rw [hdrop] at hrest
    cases hrest <;> rfl
  · by_cases hc : c = ')' <;> simp [hc]

/-- Whether a quoted string starts does not depend on the next line. -/
theorem startsQuoted_append (h : Ends chars tail) :
    startsQuoted (chars ++ tail) = startsQuoted chars := by
  rcases chars with _ | ⟨c, chars⟩
  · cases h <;> rfl
  · by_cases hdouble : c = '"' <;> by_cases hsingle : c = '\'' <;>
      simp [startsQuoted, hdouble, hsingle]

/-- A carriage return at the end of the text would leave a continuation open. -/
theorem Ends.append_ne_return {rest : List Char} (h : Ends ('\\' :: chars) tail)
    (hnil : chars ≠ []) (hreturn : ∀ rest, chars ≠ '\r' :: '\n' :: rest) :
    chars ++ tail ≠ '\r' :: '\n' :: rest := by
  obtain ⟨c, chars, rfl⟩ := List.exists_cons_of_ne_nil hnil
  intro heq
  obtain ⟨rfl, hnext⟩ := List.cons.inj heq
  rcases chars with _ | ⟨x, chars⟩
  · cases h with
    | nil => cases hnext
    | newline hclosed => exact absurd hclosed (by decide)
  · obtain ⟨rfl, -⟩ := List.cons.inj hnext
    exact hreturn chars rfl

/-- The search for the closing quote stops at the end of the line. -/
theorem quotedFrom_append {closes : Char → Bool} {before pending : Nat} {interpolated : Bool}
    (hpending : pending ≤ chars.length) (h : Ends chars tail) :
    quotedFrom closes before interpolated pending (chars ++ tail) =
      quotedFrom closes before interpolated pending chars := by
  fun_induction quotedFrom closes before interpolated pending chars with
  | case1 before interpolated pending =>
      obtain rfl : pending = 0 := Nat.le_zero.mp hpending
      cases h <;> rfl
  | case2 before interpolated pending c chars ih =>
      exact ih (by simpa using hpending) h.of_cons
  | case3 before interpolated c chars hc => simp [quotedFrom, hc]
  | case4 before interpolated c hne hslash =>
      cases h <;> simp [quotedFrom, hne, hslash]
  | case5 before interpolated c hne hslash => simp [quotedFrom, hne, hslash]
  | case6 before interpolated c hne hslash => simp [quotedFrom, hne, hslash]
  | case7 before interpolated c chars hne hslash hnil hline hreturn ih =>
      obtain rfl : c = '\\' := by simpa using hslash
      have hline' : ∀ rest, chars ++ tail ≠ '\n' :: rest := by
        intro rest heq
        obtain ⟨d, chars, rfl⟩ := List.exists_cons_of_ne_nil hnil
        exact hline chars (by rw [(List.cons.inj heq).1])
      rw [List.cons_append, quotedFrom_escape (List.append_ne_nil_of_left_ne_nil hnil _) hline'
        fun _ => h.append_ne_return hnil hreturn]
      exact ih (List.length_pos_iff.mpr hnil) h.of_cons
  | case8 before interpolated c chars hne hslash hstart error herror =>
      rw [← interpolation_append h hstart, List.cons_append] at herror
      rw [← startsInterpolation_append h, List.cons_append] at hstart
      simp [quotedFrom, hne, hslash, hstart, herror]
  | case9 before interpolated c chars hne hslash hstart count hcount ih =>
      obtain ⟨_, _, rfl, hcountline, -⟩ := interpolation_eq_ok hstart hcount
      have hrest := ih hcountline.of_cons.le_length h.of_cons
      rw [← interpolation_append h hstart, List.cons_append] at hcount
      rw [← startsInterpolation_append h, List.cons_append] at hstart
      simpa [quotedFrom, hne, hslash, hstart, hcount] using hrest
  | case10 before interpolated c chars hne hslash hstart hcloses =>
      rw [← startsInterpolation_append h, List.cons_append] at hstart
      simp [quotedFrom, hne, hslash, hstart, hcloses]
  | case11 before interpolated c chars hne hslash hstart hcloses ih =>
      rw [← startsInterpolation_append h, List.cons_append] at hstart
      simp [quotedFrom, hne, hslash, hstart, hcloses, ih (Nat.zero_le _) h.of_cons]

/-- Quoted strings do not reach the next line, whether they are closed or not. -/
theorem quoted_append (h : Ends chars tail) (hquote : startsQuoted chars) :
    quoted (chars ++ tail) = quoted chars := by
  obtain ⟨body, rfl | rfl⟩ := startsQuoted_iff.mp hquote
  · exact quotedFrom_append (Nat.zero_le _) h.of_cons
  · exact quotedFrom_append (Nat.zero_le _) h.of_cons

/-- One step of a fragment does not look at the next line. -/
theorem fragmentStep_append {inKey : Bool} (h : Ends chars tail) :
    fragmentStep inKey (chars ++ tail) = fragmentStep inKey chars := by
  have hcont := continuation_append h
  have hstart := startsInterpolation_append h
  rcases chars with _ | ⟨c, chars⟩
  · cases h <;> rfl
  · rw [List.cons_append] at hcont hstart
    simp only [List.cons_append, fragmentStep, hcont, hstart]

/-- Fragments do not reach the next line. -/
theorem fragment_append {inKey : Bool} (h : Ends chars tail) :
    fragment inKey (chars ++ tail) = fragment inKey chars := by
  rw [fragment, repeated_append (fun chars => (inline_fragmentStep inKey chars).le_length)
    (fun _ h => fragmentStep_append h) h, fragment]

/-- Whether a bare macro argument starts does not depend on the next line. -/
theorem startsInterpolated_append {inKey : Bool} (h : Ends chars tail) :
    startsInterpolated inKey (chars ++ tail) = startsInterpolated inKey chars := by
  have hlead : isLeadChar inKey '\n' = false := by cases inKey <;> rfl
  rw [startsInterpolated, startsInterpolated, startsQuoted_append h, run_append hlead h,
    drop_append (run_le_length _ _), startsInterpolation_append (h.drop _)]
  split
  · rename_i hquote
    rw [quoted_append h hquote]
  · rfl

/-- More fuel than characters changes nothing. -/
theorem interpolatedKeyPieces_append {fuel fuel' : Nat} (hfuel : chars.length ≤ fuel)
    (hfuel' : chars.length ≤ fuel') (h : Ends chars tail) :
    interpolatedKeyPieces fuel' (chars ++ tail) = interpolatedKeyPieces fuel chars := by
  induction fuel generalizing chars fuel' with
  | zero =>
      obtain rfl := List.eq_nil_of_length_eq_zero (Nat.le_zero.mp hfuel)
      cases fuel' <;> cases h <;> rfl
  | succ fuel ih =>
      rcases fuel' with _ | fuel'
      · obtain rfl := List.eq_nil_of_length_eq_zero (Nat.le_zero.mp hfuel')
        cases h <;> rfl
      · have hnext : ∀ {n}, 0 < n → n ≤ chars.length →
            interpolatedKeyPieces fuel' ((chars ++ tail).drop n) =
              interpolatedKeyPieces fuel (chars.drop n) := by
          intro n hpos hn
          rw [drop_append hn]
          exact ih (by rw [List.length_drop]; omega) (by rw [List.length_drop]; omega) (h.drop n)
        rw [interpolatedKeyPieces, interpolatedKeyPieces, startsInterpolation_append h]
        split
        · rename_i hstart
          rw [interpolation_append h hstart]
          rcases hscan : interpolation chars with error | count
          · rfl
          · obtain ⟨_, _, rfl, hline, -⟩ := interpolation_eq_ok hstart hscan
            simp only [hnext (Nat.succ_pos _) hline.le_length]
        · rw [fragment_append h]
          rcases hscan : fragment true chars with _ | count
          · rfl
          · simp only [hnext (fragment_pos hscan) (inline_fragment hscan).le_length]

/-- More fuel than characters finds no other pieces of an interpolated key. -/
theorem interpolatedKeyPieces_eq {fuel : Nat} (h : chars.length ≤ fuel) :
    interpolatedKeyPieces fuel chars = interpolatedKeyPieces chars.length chars := by
  have hsame : interpolatedKeyPieces fuel (chars ++ []) =
      interpolatedKeyPieces chars.length chars :=
    interpolatedKeyPieces_append (le_refl _) h .nil
  rwa [List.append_nil] at hsame

/-- Keys with interpolations do not reach the next line. -/
theorem interpolatedKey_append (h : Ends chars tail) :
    interpolatedKey (chars ++ tail) = interpolatedKey chars := by
  rw [interpolatedKey, interpolatedKeyPieces_append (le_refl _) (by simp) h, interpolatedKey]

/-- A key with interpolations lies in the text. -/
theorem interpolatedKeyPieces_le_length {fuel : Nat}
    (h : interpolatedKeyPieces fuel chars = some n) : n ≤ chars.length := by
  induction fuel generalizing chars n with
  | zero =>
      cases h
      exact Nat.zero_le _
  | succ fuel ih =>
      rw [interpolatedKeyPieces] at h
      split at h
      · rename_i hstart
        rcases hscan : interpolation chars with error | count
        · simp [hscan] at h
        · obtain ⟨_, _, rfl, hline, -⟩ := interpolation_eq_ok hstart hscan
          simp only [hscan, Option.map_eq_some_iff] at h
          obtain ⟨m, hm, rfl⟩ := h
          have := ih hm
          have := hline.le_length
          rw [List.length_drop] at *
          omega
      · rcases hscan : fragment true chars with _ | count
        · simp only [hscan, Option.some.injEq] at h
          omega
        · simp only [hscan, Option.map_eq_some_iff] at h
          obtain ⟨m, hm, rfl⟩ := h
          have := ih hm
          have := (inline_fragment hscan).le_length
          rw [List.length_drop] at *
          omega

/-! ### Pairs -/

/-- Keys of pairs do not reach the next line. -/
theorem pairKey_append (h : Ends chars tail) : pairKey (chars ++ tail) = pairKey chars := by
  rw [pairKey, pairKey, startsQuoted_append h, startsInterpolated_append h,
    interpolatedKey_append h, word_append h]
  split
  · rename_i hquote
    rw [quoted_append h hquote]
  · rfl

/-- A key of a pair lies in the text. -/
theorem pairKey_le_length (h : pairKey chars = some n) : n ≤ chars.length := by
  rw [pairKey] at h
  split at h
  · rename_i hquote
    rcases hscan : quoted chars with error | q
    · simp [hscan] at h
    · simp only [hscan, Option.some.injEq] at h
      obtain ⟨body, rfl | rfl⟩ := startsQuoted_iff.mp hquote
      · obtain ⟨_, _, _, hline, -⟩ := quoted_eq_ok (by decide) hscan
        exact h ▸ hline.le_length
      · obtain ⟨_, _, _, hline, -⟩ := quoted_eq_ok (by decide) hscan
        exact h ▸ hline.le_length
  · split at h
    · rw [interpolatedKey] at h
      split at h
      · rename_i hpieces
        cases h
        exact interpolatedKeyPieces_le_length hpieces
      · cases h
    · exact (inline_word h).le_length

/-- The look-ahead for a pair does not reach the next line. -/
theorem startsPair_append (h : Ends chars tail) :
    startsPair (chars ++ tail) = startsPair chars := by
  rw [startsPair, startsPair, pairKey_append h]
  rcases hkey : pairKey chars with _ | count
  · rfl
  · have hrest := h.drop count
    simp only [drop_append (pairKey_le_length hkey), trivia_append_tail hrest,
      drop_append (trivia_le_length (chars.drop count))]
    have hend := hrest.drop (trivia (chars.drop count))
    rcases hdrop : (chars.drop count).drop (trivia (chars.drop count)) with _ | ⟨c, rest⟩
    · rw [hdrop] at hend
      cases hend <;> rfl
    · rfl

/-! ### Malformed text -/

/-- The chunk an error takes does not reach the next line. -/
theorem chunk_append (h : Ends chars tail) (hne : chars ≠ []) :
    chunk (chars ++ tail) = chunk chars := by
  have hpos : 0 < chars.length := List.length_pos_iff.mpr hne
  rw [chunk, chunk, run_append (by decide) h, List.length_append]
  omega

/-- Whether something like coordinates starts does not depend on the next line. -/
theorem startsCoordinateLike_append (h : Ends chars tail) :
    startsCoordinateLike (chars ++ tail) = startsCoordinateLike chars := by
  have hcoordinate := coordinate_append h
  rcases chars with _ | ⟨c, chars⟩
  · cases h <;> rfl
  · have hchunk := chunk_append h (by simp)
    rw [List.cons_append] at hcoordinate hchunk
    simp only [List.cons_append, startsCoordinateLike, hcoordinate, hchunk]

/-- One step of a coordinate run does not look at the next line. -/
theorem coordinateStep_append (h : Ends chars tail) :
    coordinateStep (chars ++ tail) = coordinateStep chars := by
  have hgap : run isBlank (chars ++ tail) = run isBlank chars := run_append (by decide) h
  have hrest := h.drop (run isBlank chars)
  simp only [coordinateStep, hgap, drop_append (run_le_length _ _),
    startsCoordinateLike_append hrest]
  split
  · rfl
  · rename_i hstart
    have hne : chars.drop (run isBlank chars) ≠ [] := by
      intro hnil
      simp [hnil, startsCoordinateLike] at hstart
    rw [chunk_append hrest hne]

/-- A run of coordinates does not reach the next line. -/
theorem coordinateRun_append (h : Ends chars tail) (hne : chars ≠ []) :
    coordinateRun (chars ++ tail) = coordinateRun chars := by
  rw [coordinateRun, chunk_append h hne, drop_append (chunk_le_length chars),
    repeated_append coordinateStep_le_length (fun _ h => coordinateStep_append h) (h.drop _),
    coordinateRun]

/-- A continuation behind one character does not reach the next line. -/
theorem continuation_cons_append {c : Char} (h : Ends (c :: chars) tail) :
    continuation (c :: (chars ++ tail)) = continuation (c :: chars) :=
  continuation_append h

/-- A quote starts a quoted string. -/
theorem startsQuoted_cons {c : Char} (hquote : c == '"' || c == '\'') :
    startsQuoted (c :: chars) := by
  rcases (by simpa using hquote : c = '"' ∨ c = '\'') with rfl | rfl <;> rfl

/-- A balanced chunk does not reach the next line, whatever is pending. -/
theorem balancedChunk_append {closers : List Char} {pending : Nat}
    (hpending : pending ≤ chars.length) (h : Ends chars tail) :
    balancedChunk closers pending (chars ++ tail) = balancedChunk closers pending chars := by
  fun_induction balancedChunk closers pending chars with
  | case1 closers pending =>
      obtain rfl : pending = 0 := Nat.le_zero.mp hpending
      cases h <;> rfl
  | case2 closers pending c chars ih =>
      exact congrArg (· + 1) (ih (by simpa using hpending) h.of_cons)
  | case3 closers c chars hc => simp [balancedChunk, hc]
  | case4 closers c chars hc count hcount hempty =>
      simp [balancedChunk, hc, continuation_cons_append h, hcount, hempty]
  | case5 closers c chars hc count hcount hempty ih =>
      have hlen := continuation_le_length hcount
      have hrest := ih (by rw [List.length_cons] at hlen; omega) h.of_cons
      simp [balancedChunk, hc, continuation_cons_append h, hcount, hempty, hrest]
  | case6 closers c chars hc hcont hblank =>
      simp [balancedChunk, hc, continuation_cons_append h, hcont, hblank]
  | case7 closers c chars hc hcont hblank hquote q hq ih =>
      have hstart : startsQuoted (c :: chars) := startsQuoted_cons hquote
      have hlen := (inline_quoted hstart hq).le_length
      have hrest := ih (by simpa [Quoted.count] using hlen) h.of_cons
      rw [← quoted_append h hstart, List.cons_append] at hq
      simp [balancedChunk, hc, continuation_cons_append h, hcont, hblank, hquote, hq, hrest]
  | case8 closers c chars hc hcont hblank hquote error herror =>
      have hstart : startsQuoted (c :: chars) := startsQuoted_cons hquote
      have htrimmed := trimmedStatement_append h
      rw [← quoted_append h hstart, List.cons_append] at herror
      rw [List.cons_append] at htrimmed
      simp [balancedChunk, hc, continuation_cons_append h, hcont, hblank, hquote, herror, htrimmed]
  | case9 closers c chars hc hcont hblank hquote hsquare ih =>
      simp [balancedChunk, hc, continuation_cons_append h, hcont, hblank, hquote, hsquare,
        ih (Nat.zero_le _) h.of_cons]
  | case10 closers c chars hc hcont hblank hquote hsquare hcurly ih =>
      simp [balancedChunk, hc, continuation_cons_append h, hcont, hblank, hquote, hsquare, hcurly,
        ih (Nat.zero_le _) h.of_cons]
  | case11 c chars hc hcont hblank hquote hsquare hcurly hclose =>
      simp [balancedChunk, hc, continuation_cons_append h, hcont, hblank, hquote, hsquare, hcurly]
  | case12 c chars hc hcont hquote hsquare hcurly hclose closer outer hcloser =>
      simp [balancedChunk, hc, continuation_cons_append h, hcont, hquote, hsquare, hcurly, hclose,
        hcloser]
  | case13 c chars hc hcont hquote hsquare hcurly hclose closer outer hcloser hempty =>
      simp [balancedChunk, hc, continuation_cons_append h, hcont, hquote, hsquare, hcurly, hclose,
        hcloser, hempty]
  | case14 c chars hc hcont hquote hsquare hcurly hclose closer outer hcloser hempty _ ih =>
      simp [balancedChunk, hc, continuation_cons_append h, hcont, hquote, hsquare, hcurly, hclose,
        hcloser, hempty, ih (Nat.zero_le _) h.of_cons]
  | case15 closers c chars hc hcont hblank hquote hsquare hcurly hclose ih =>
      simp [balancedChunk, hc, continuation_cons_append h, hcont, hblank, hquote, hsquare, hcurly,
        hclose, ih (Nat.zero_le _) h.of_cons]

end Mcfunction.Scan
