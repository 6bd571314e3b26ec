import Mcfunction.Proofs.Lines.Scan.Token
import Mcfunction.Proofs.Parser.Container
import Mcfunction.Proofs.Progress.Scan
import Mcfunction.Proofs.Returns.Token

/-!
# Pairs, Chunks and Comments without Carriage Returns

What the parser reads ahead, what recovery skips and what a comment holds, when the returns of line
endings are left out. The text that recovery skips and the text of a comment may reach over line
continuations, and hold the returns in them.

## Main results

* `startsPair_unix`: the key and the operator of a pair.
* `coordinateRun_unix`, `balancedChunk_unix`: malformed text.
* `commentTag_unix`, `commentText_unix`: comments.
-/

namespace Mcfunction.Scan

open Text

variable {chars : List Char} {m n : Nat}

/-! ### Pairs -/

/-- The pieces of a key with interpolations hold no return. -/
theorem returnFree_interpolatedKeyPieces {fuel : Nat} (h : Paired chars)
    (hn : interpolatedKeyPieces fuel chars = some n) : ReturnFree chars n := by
  induction fuel generalizing chars n with
  | zero =>
      cases hn
      exact .zero _ _
  | succ fuel ih =>
      rw [interpolatedKeyPieces] at hn
      split at hn
      · rename_i hstart
        rcases hscan : interpolation chars with error | count
        · simp [hscan] at hn
        · simp only [hscan, Option.map_eq_some_iff] at hn
          obtain ⟨m, hm, rfl⟩ := hn
          exact (returnFree_interpolation h hstart hscan).add (ih (h.drop _) hm)
      · rcases hscan : fragment true chars with _ | count
        · simp only [hscan, Option.some.injEq] at hn
          subst hn
          exact .zero _ _
        · simp only [hscan, Option.map_eq_some_iff] at hn
          obtain ⟨m, hm, rfl⟩ := hn
          exact ((taken_fragment hscan).returnFree rfl).add (ih (h.drop _) hm)

/-- The key of a pair does not depend on returns. -/
theorem pairKey_unix (h : Paired chars) : pairKey (unix chars) = pairKey chars := by
  rw [pairKey, pairKey, startsQuoted_unix h, startsInterpolated_unix h, interpolatedKey_unix h,
    word_unix h]
  split
  · rename_i hquote
    rw [quoted_unix h hquote]
    rcases quoted chars with error | q
    · rfl
    · rfl
  · rfl

/-- The key of a pair holds no return. -/
theorem returnFree_pairKey (h : Paired chars) (hn : pairKey chars = some n) :
    ReturnFree chars n := by
  rw [pairKey] at hn
  split at hn
  · rename_i hquote
    rcases hscan : quoted chars with error | q
    · simp [hscan] at hn
    · simp only [hscan, Option.some.injEq] at hn
      exact hn ▸ returnFree_quoted h hquote hscan
  · split at hn
    · rw [interpolatedKey] at hn
      split at hn
      · rename_i hpieces
        cases hn
        exact returnFree_interpolatedKeyPieces h hpieces
      · cases hn
    · exact (taken_word hn).returnFree (by decide)

/-- Whether a pair starts does not depend on returns. -/
theorem startsPair_unix (h : Paired chars) : startsPair (unix chars) = startsPair chars := by
  rw [startsPair, startsPair, pairKey_unix h]
  rcases hkey : pairKey chars with _ | count
  · rfl
  · have hrest := h.drop count
    have hoperator := (hrest.drop (trivia (chars.drop count))).head?_any_unix (p := isOperator)
      rfl rfl
    simp only [(returnFree_pairKey h hkey).drop_unix, trivia_unix hrest, ← unix_drop, hoperator]

/-! ### Malformed text -/

/-- A chunk that starts with another character does not depend on returns. -/
theorem chunk_unix {c : Char} (hc : c ≠ '\r') (h : Paired (c :: chars)) :
    chunk (unix (c :: chars)) = chunk (c :: chars) := by
  rw [chunk, chunk, run_unix rfl rfl h, unix_cons hc, List.length_cons, List.length_cons]
  omega

/-- Such a chunk holds no return. -/
theorem returnFree_chunk {c : Char} (hc : c ≠ '\r') (chars : List Char) :
    ReturnFree (c :: chars) (chunk (c :: chars)) := by
  have hone : ReturnFree (c :: chars) 1 := .one (by simpa using hc)
  have hrun := (taken_run isChunkChar (c :: chars)).returnFree rfl
  rw [chunk, List.length_cons, Nat.min_eq_left (Nat.succ_le_succ (Nat.zero_le _))]
  rcases Nat.le_total (run isChunkChar (c :: chars)) 1 with hle | hle
  · rwa [max_eq_right hle]
  · rwa [max_eq_left hle]

/-- Whether something like coordinates starts does not depend on returns. -/
theorem startsCoordinateLike_unix (h : Paired chars) :
    startsCoordinateLike (unix chars) = startsCoordinateLike chars := by
  refine h.answer_unix (fun _ => rfl) fun c tail hc h => ?_
  have hcoordinate := coordinate_unix h
  have hchunk := chunk_unix hc h
  rw [unix_cons hc] at hcoordinate hchunk
  simp only [startsCoordinateLike, hcoordinate, hchunk]

/-- Where no coordinate part follows, none is taken. -/
theorem coordinateStep_of_not {gap : Nat} (hgap : run isBlank chars = gap)
    (hnext : startsCoordinateLike (chars.drop gap) = false) : coordinateStep chars = 0 := by
  simp [coordinateStep, hgap, hnext]

/-- A step along broken coordinates does not depend on returns, and takes none. -/
theorem coordinateStep_unix (h : Paired chars) :
    coordinateStep (unix chars) = coordinateStep chars ∧
      ReturnFree chars (coordinateStep chars) := by
  have hrun : run isBlank (unix chars) = unixCount chars (run isBlank chars) :=
    run_unix_of_return rfl chars
  have hdrop := unix_drop chars (run isBlank chars)
  have hlike := startsCoordinateLike_unix (h.drop (run isBlank chars))
  rw [hdrop] at hlike
  rcases hnext : startsCoordinateLike (chars.drop (run isBlank chars))
  · rw [coordinateStep_of_not rfl hnext, coordinateStep_of_not hrun (hlike.trans hnext)]
    exact ⟨rfl, .zero _ _⟩
  · rcases blanks_returnFree_or h with hfree | ⟨tail, hline⟩
    · rw [hfree.unixCount_eq] at hrun
      have hrest := h.drop (run isBlank chars)
      simp only [coordinateStep, hrun, hfree.drop_unix, startsCoordinateLike_unix hrest, hnext]
      rcases hrest.cases with hnil | ⟨tail, hline⟩ | ⟨c, tail, hcons, hc⟩
      · rw [hnil] at hnext
        cases hnext
      · rw [hline] at hnext
        cases hnext
      · rw [hcons] at hrest ⊢
        rw [chunk_unix hc hrest]
        refine ⟨rfl, ?_⟩
        split
        · exact .zero _ _
        · exact hfree.add (hcons ▸ returnFree_chunk hc tail)
    · rw [hline] at hnext
      cases hnext

/-- Broken coordinates keep the characters that stay. -/
theorem coordinateRun_unix {c : Char} (hc : c ≠ '\r') (h : Paired (c :: chars)) :
    coordinateRun (unix (c :: chars)) = unixCount (c :: chars) (coordinateRun (c :: chars)) := by
  have hfree := returnFree_chunk hc chars
  have hrepeated := repeated_unix coordinateStep_le_length
    (fun chars => .inr ⟨rfl, fun _ => rfl⟩)
    (fun c chars _ h => by
      rw [(coordinateStep_unix h).1, (coordinateStep_unix h).2.unixCount_eq])
    (h.drop (chunk (c :: chars)))
  rw [coordinateRun, coordinateRun, chunk_unix hc h, hfree.drop_unix, hrepeated, unixCount_add,
    hfree.unixCount_eq]

/-- A statement without blanks at its end keeps the characters that stay. -/
theorem trimmedStatement_unix (h : Paired chars) :
    trimmedStatement (unix chars) = unixCount chars (trimmedStatement chars) := by
  have hprefix : trimEnd (chars.take (statement chars)) <+: chars :=
    (isPrefix_trimEnd _).trans (List.take_prefix _ _)
  rw [trimmedStatement, statement_unix h, ← unix_take, trimEnd_unix, trimmedStatement, unixCount,
    ← List.prefix_iff_eq_take.mp hprefix]

/-- A continuation behind its first character is told as before. -/
theorem continuation_cons_unix {c : Char} (hc : c ≠ '\r') (h : Paired (c :: chars)) :
    continuation (c :: unix chars) = (continuation (c :: chars)).map (unixCount (c :: chars)) := by
  rw [← unix_cons hc, continuation_unix h]

/-- A quoted string in a chunk is read as before. -/
theorem quoted_cons_unix {c : Char} (hc : c ≠ '\r') (h : Paired (c :: chars))
    (hstart : startsQuoted (c :: chars)) :
    quoted (c :: unix chars) = (quoted (c :: chars)).mapError (Error.unix (c :: chars)) := by
  rw [← unix_cons hc, quoted_unix h hstart]

/-- The turn of a scanning loop in which the characters are counted that stay. -/
def Turn.unix {State : Type} (chars : List Char) : Turn State → Turn State
  | .stop count => .stop (unixCount chars count)
  | .next count state => .next (unixCount chars count) state

@[simp] theorem Turn.unix_stop {State : Type} (chars : List Char) (count : Nat) :
    (Turn.stop count : Turn State).unix chars = .stop (unixCount chars count) := rfl

@[simp] theorem Turn.unix_next {State : Type} (chars : List Char) (count : Nat) (state : State) :
    (Turn.next count state).unix chars = .next (unixCount chars count) state := rfl

/-- One character that stays is one character. -/
theorem unixCount_one {c : Char} (hc : c ≠ '\r') (chars : List Char) :
    unixCount (c :: chars) 1 = 1 := by
  rw [unixCount_cons hc, unixCount_zero]

/-- A turn that does not start with a return takes the characters that stay. -/
theorem balancedTurn_unix {closers : List Char} {c : Char} (hc : c ≠ '\r')
    (h : Paired (c :: chars)) :
    balancedTurn closers (c :: unix chars) =
      (balancedTurn closers (c :: chars)).unix (c :: chars) := by
  have hone := unixCount_one hc chars
  have hnext := continuation_cons_unix hc h
  by_cases hline : c = '\n'
  · simp [balancedTurn, hline]
  cases hcontinuation : continuation (c :: chars) with
  | some count =>
      cases closers <;> simp [balancedTurn, hline, hnext, hcontinuation]
  | none =>
      by_cases hquote : c = '"' ∨ c = '\''
      · have hstart : startsQuoted (c :: chars) := startsQuoted_cons (by simpa using hquote)
        have hblank : isBlank c = false := by rcases hquote with rfl | rfl <;> rfl
        have hsame := quoted_cons_unix hc h hstart
        cases hq : quoted (c :: chars) with
        | ok q =>
            have hfree := (returnFree_quoted h hstart hq).unixCount_eq
            rw [hq, Except.mapError] at hsame
            simp [balancedTurn, hline, hnext, hcontinuation, hquote, hblank, hsame, hq,
              hfree]
        | error error =>
            have htrimmed := trimmedStatement_unix h
            rw [hq, Except.mapError] at hsame
            rw [unix_cons hc] at htrimmed
            simp [balancedTurn, hline, hnext, hcontinuation, hquote, hblank, hsame, hq,
              htrimmed, (unixCount_mono (c :: chars)).map_max, hone]
      · -- what is left are turns of one character, and those that end before it
        cases closers <;>
          simp [balancedTurn, apply_ite (Turn.unix (c :: chars)), hline, hnext,
            hcontinuation, hquote, hone]

/-- Before the end of a line with a return, a chunk has at most the return left. -/
theorem unixCount_balancedChunk_return (closers tail : List Char) :
    unixCount ('\r' :: '\n' :: tail) (balancedChunk closers 0 ('\r' :: '\n' :: tail)) = 0 := by
  cases closers <;> rfl

/-- What recovery skips of a malformed chunk. By induction on the length of the text: a chunk that
reaches the end of its line ends there with or without the return, and any other turn takes the
characters that stay. -/
theorem balancedChunk_unix {closers : List Char} (h : Paired chars) :
    balancedChunk closers 0 (unix chars) = unixCount chars (balancedChunk closers 0 chars) := by
  induction hlength : chars.length using Nat.strong_induction_on generalizing closers chars with
  | _ length ih =>
      subst hlength
      rcases h.cases with rfl | ⟨tail, rfl⟩ | ⟨c, tail, rfl, hc⟩
      · rfl
      · rw [unixCount_balancedChunk_return]
        rfl
      · have hadvances := balancedTurn_advances closers (c :: tail)
        rw [unix_cons hc, balancedChunk_eq_turn, balancedTurn_unix hc h,
          balancedChunk_eq_turn closers (c :: tail)]
        generalize balancedTurn closers (c :: tail) = turn at hadvances ⊢
        cases turn with
        | stop count => rfl
        | next count closers' =>
            obtain ⟨hpos, hle⟩ := hadvances
            have hless : ((c :: tail).drop count).length < (c :: tail).length := by
              rw [List.length_drop]
              omega
            have hrest := @ih _ hless _ closers' (h.drop count) rfl
            rw [unix_drop, unix_cons hc] at hrest
            rw [Turn.unix_next, Turn.total, Turn.total, hrest, unixCount_add]

/-! ### Comments -/

/-- The tag of a comment does not depend on returns. -/
theorem commentTag_unix (h : Paired chars) : commentTag (unix chars) = commentTag chars := by
  have hrun : ∀ {chars} mark, mark ≠ '\r' → mark ≠ '\n' → Paired chars →
      run (· == mark) (unix chars) = run (· == mark) chars := by
    intro chars mark hreturn hnewline h
    exact run_unix (by simpa using hreturn.symm) (by simpa using hnewline.symm) h
  have hfree := (taken_run (· == '#') chars).returnFree rfl
  simp only [commentTag, hrun '#' (by decide) (by decide) h, hfree.drop_unix]
  have hrest := h.drop (run (· == '#') chars)
  rcases hrest.cases with hdrop | ⟨tail, hdrop⟩ | ⟨c, tail, hdrop, hc⟩
  · rw [hdrop]
    rfl
  · rw [hdrop]
    rfl
  · rw [hdrop] at hrest ⊢
    rw [unix_cons hc]
    by_cases hnewline : c = '\n'
    · subst hnewline
      rfl
    · simp only [hrun c hc hnewline hrest.of_cons]

/-- Where a statement ends in a return, the text of a comment ends before it. -/
theorem commentText_of_return (hlast : (chars.take (statement chars)).getLast? = some '\r') :
    ∃ tail, chars.drop (commentText chars) = '\r' :: tail ∧
      chars.take (statement chars) = chars.take (commentText chars) ++ ['\r'] := by
  obtain ⟨init, hinit⟩ := List.getLast?_eq_some_iff.mp hlast
  have hlength := congrArg List.length hinit
  rw [List.length_take_of_le (statement_le_length chars), List.length_append,
    List.length_singleton] at hlength
  have hcount : commentText chars = init.length := by
    simp only [commentText, hlast]
    rw [if_pos (beq_self_eq_true _), hlength, Nat.add_sub_cancel]
  have hchars : chars = init ++ '\r' :: chars.drop (statement chars) := by
    conv_lhs => rw [← List.take_append_drop (statement chars) chars, hinit, List.append_assoc,
      List.singleton_append]
  rw [hcount]
  refine ⟨chars.drop (statement chars), ?_, ?_⟩
  · rw [hchars, List.drop_left, ← hchars]
  · rw [hinit, hchars, List.take_left]

/-- Where a statement does not end in a return, the text of a comment is all of it. -/
theorem commentText_of_not_return
    (hlast : (chars.take (statement chars)).getLast? ≠ some '\r') :
    commentText chars = statement chars := by
  rw [commentText]
  exact if_neg (by simpa using hlast)

/-- The text of a comment ends before the return at the end of its line. -/
theorem commentText_unix (h : Paired chars) :
    commentText (unix chars) = unixCount chars (commentText chars) := by
  have hlast' : ((unix chars).take (statement (unix chars))).getLast? ≠ some '\r' := by
    intro hlast
    rw [statement_unix h, ← unix_take] at hlast
    exact return_notMem_unix _ (List.mem_of_getLast? hlast)
  rw [commentText_of_not_return hlast', statement_unix h]
  by_cases hlast : (chars.take (statement chars)).getLast? = some '\r'
  · obtain ⟨tail, -, htake⟩ := commentText_of_return hlast
    rw [unixCount, htake, unix_append, unix_return, unix_nil, List.append_nil]
    rfl
  · rw [commentText_of_not_return hlast]

/-- The returns in the text of a comment belong to line endings in it. -/
theorem paired_commentText (h : Paired chars) : Paired (chars.take (commentText chars)) := by
  have hsplit := List.take_append_drop (commentText chars) chars
  by_cases hlast : (chars.take (statement chars)).getLast? = some '\r'
  · obtain ⟨tail, hdrop, -⟩ := commentText_of_return hlast
    rw [← hsplit] at h
    exact h.of_append (by simp [hdrop])
  · rw [commentText_of_not_return hlast] at hsplit ⊢
    intro front tail hfront
    rcases tail with _ | ⟨x, tail⟩
    · exact absurd (by rw [hfront, List.getLast?_concat]) hlast
    · refine h front (x :: tail ++ chars.drop (statement chars)) ?_
      rw [← List.cons_append, ← List.append_assoc, ← hfront, hsplit]

end Mcfunction.Scan
