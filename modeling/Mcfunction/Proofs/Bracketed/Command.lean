import Mcfunction.Proofs.Bracketed.Container
import Mcfunction.Proofs.Modes
import Mcfunction.Proofs.Progress.Turn

/-!
# Arguments in Well-Bracketed Text

An argument that is a container, or a selector with one, has an end that its brackets show. If it
cannot be read, its placeholder ends there, and the next argument is read from there on. The same
holds for a container in value position.

## Main results

* `argument_confined`: an error in such an argument does not reach over its end.
* `value_run_of_failed`, `argumentList_run_of_failed`: what stands behind a placeholder is parsed.
-/

namespace Mcfunction

/-- The text of an argument with an end that its brackets show: a container, or a selector with
one. -/
inductive Scan.Enclosed : List Char → Prop
  /-- A list or a compound. -/
  | container {text : List Char} : Scan.Bracketed text → Enclosed text
  /-- A selector whose letter is known. -/
  | selector {letter : Char} {target : SelectorTarget} {text : List Char} :
      SelectorTarget.ofChar? letter = some target → Scan.Bracketed text →
      Enclosed ('@' :: letter :: text)

/-- Such an argument without `$(` starts at the cursor and ends right before `stop`. -/
inductive Encloses (stop c : Cursor) : Prop
  /-- A list or a compound. -/
  | container {bracket : Bracket} : Opens bracket stop c → Encloses stop c
  /-- A selector whose letter is known. -/
  | selector {bracket : Bracket} {target : SelectorTarget} : c.peek = some '@' →
      (c.advance 1).peek.bind SelectorTarget.ofChar? = some target →
      Opens bracket stop (c.advance 2) → Encloses stop c

variable {bracket : Bracket} {stop c gap : Cursor} {text tail : List Char}

/-! ### Places of such arguments -/

/-- A well-bracketed text is a container. -/
theorem Opens.of_bracketed (htext : Scan.Bracketed text) (hnone : ¬ ['$', '('] <:+: text)
    (hrest : c.rest = text ++ tail) : ∃ bracket, Opens bracket (c.advance text.length) c := by
  obtain @⟨bracket, inside, hinside⟩ := htext
  have hcons : c.rest = bracket.opener :: (inside ++ bracket.closer :: tail) := by
    rw [hrest]
    simp
  refine ⟨bracket, Cursor.peek_of_cons hcons, inside, hinside, ?_, ?_, ?_⟩
  · exact fun hpart => hnone (hpart.trans ⟨[bracket.opener], [bracket.closer], by simp⟩)
  · rw [Cursor.advance_rest, Cursor.advance_rest, hrest, List.drop_left, List.cons_append,
      List.cons_append, List.drop_succ_cons, List.drop_zero, List.append_assoc,
      List.singleton_append]
  · rw [Cursor.advance_advance]
    congr 1
    simp [Nat.add_comm]

/-- A well-bracketed text, or a selector with one, is enclosed. -/
theorem Encloses.of_enclosed (htext : Scan.Enclosed text) (hnone : ¬ ['$', '('] <:+: text)
    (hrest : c.rest = text ++ tail) : Encloses (c.advance text.length) c := by
  cases htext with
  | container h =>
      obtain ⟨bracket, hopens⟩ := Opens.of_bracketed h hnone hrest
      exact .container hopens
  | @selector letter target text htarget h =>
      have hone : (c.advance 1).rest = letter :: (text ++ tail) := by
        rw [Cursor.advance_rest, hrest]
        rfl
      have htwo : (c.advance 2).rest = text ++ tail := by
        rw [Cursor.advance_rest, hrest]
        rfl
      have hinside : ¬ ['$', '('] <:+: text := by
        intro hpart
        exact hnone (hpart.trans (List.suffix_append ['@', letter] text).isInfix)
      obtain ⟨bracket, hopens⟩ := Opens.of_bracketed h hinside htwo
      rw [Cursor.advance_advance, Nat.add_comm] at hopens
      have hpeek : (c.advance 1).peek.bind SelectorTarget.ofChar? = some target := by
        rw [Cursor.peek_of_cons hone]
        exact htarget
      exact .selector (Cursor.peek_of_cons hrest) hpeek hopens

namespace Scan

theorem Enclosed.head?_append (h : Enclosed text) (tail : List Char) :
    (text ++ tail).head? = text.head? := by
  cases h with
  | container h =>
      cases h with
      | mk => rfl
  | selector => rfl

/-- No interpolated text starts at a bracket or a `@`. -/
theorem startsInterpolated_of_head {x : Char} {chars : List Char}
    (hx : x = '[' ∨ x = '{' ∨ x = '@') : startsInterpolated false (x :: chars) = false := by
  rcases hx with rfl | rfl | rfl
  · rfl
  · rfl
  · rfl

/-- Outside brackets a plain character that is no blank is skipped by itself. -/
theorem balancedChunk_plain {x : Char} (hx : isPlain x) (hblank : isBlank x = false)
    (chars : List Char) : balancedChunk [] 0 (x :: chars) = 1 + balancedChunk [] 0 chars :=
  balancedChunk_of_next (balancedTurn_plain hx (.inr hblank))

end Scan

theorem SelectorTarget.isPlain_of_ofChar? {letter : Char} {target : SelectorTarget}
    (h : SelectorTarget.ofChar? letter = some target) :
    Scan.isPlain letter ∧ Scan.isBlank letter = false := by
  unfold SelectorTarget.ofChar? at h
  split at h
  all_goals first | exact ⟨rfl, rfl⟩ | cases h

namespace Encloses

/-- What is enclosed has at least one character. -/
theorem lt (h : Encloses stop c) : c < stop := by
  cases h with
  | container h => exact h.lt
  | selector hat htarget h =>
      exact (Cursor.le_advance (inline_target hat htarget).le_length).trans_lt h.lt

/-- What starts with a bracket is a container. -/
theorem opens (h : Encloses stop c) (hpeek : c.peek = some bracket.opener) :
    Opens bracket stop c := by
  cases h with
  | @container bracket' h =>
      obtain rfl : bracket = bracket' := by
        have hopener := hpeek.symm.trans h.peek
        cases bracket <;> cases bracket' <;> first | rfl | cases hopener
      exact h
  | selector hat =>
      have hopener := hpeek.symm.trans hat
      cases bracket <;> cases hopener

/-- The chunk that recovery skips is the argument. -/
theorem balancedChunk (h : Encloses stop c) :
    c.offsetAfter (Scan.balancedChunk [] 0 c.rest) = stop.offset := by
  cases h with
  | container h => exact h.balancedChunk
  | selector hat htarget h =>
      obtain ⟨rest, hrest⟩ := List.head?_eq_some_iff.mp hat
      obtain ⟨letter, hpeek, htarget⟩ := Option.bind_eq_some_iff.mp htarget
      rw [Cursor.peek, Cursor.advance_one_of_cons hrest] at hpeek
      obtain ⟨rest, rfl⟩ := List.head?_eq_some_iff.mp hpeek
      obtain ⟨hplain, hblank⟩ := SelectorTarget.isPlain_of_ofChar? htarget
      rw [← h.balancedChunk, Cursor.advance_rest, hrest, Scan.balancedChunk_plain rfl rfl,
        Scan.balancedChunk_plain hplain hblank]
      simp only [Cursor.offsetAfter, Cursor.advance_advance, List.drop_succ_cons, List.drop_zero]
      congr 2
      omega

/-- No macro argument starts where something is enclosed. -/
theorem startsInterpolated (h : Encloses stop c) :
    Scan.startsInterpolated false c.rest = false := by
  cases h with
  | @container bracket h =>
      obtain ⟨rest, hrest⟩ := List.head?_eq_some_iff.mp h.peek
      rw [hrest]
      exact Scan.startsInterpolated_of_head ((Scan.opener_cases bracket).imp_right .inl)
  | selector hat =>
      obtain ⟨rest, hrest⟩ := List.head?_eq_some_iff.mp hat
      rw [hrest]
      exact Scan.startsInterpolated_of_head (.inr (.inr rfl))

/-- The line does not end where something is enclosed. -/
theorem atLineEnd (h : Encloses stop c) : Scan.atLineEnd c.rest = false := by
  cases h with
  | @container bracket h =>
      refine Cursor.atLineEnd_of_peek h.peek ?_
      rcases Scan.opener_cases bracket with h | h
      · rw [h]
        decide
      · rw [h]
        decide
  | selector hat => exact Cursor.atLineEnd_of_peek hat (by decide)

end Encloses

namespace Parser

variable {α : Type} {s : Settings} {room : Nat} {inMacro : Bool} {error : ParseError}
  {log : List Event}

/-! ### Errors in such an argument -/

/-- Whatever is wrong in the brackets of a selector, the error does not reach over them. -/
theorem selector_confined {target : SelectorTarget} (hat : c.peek = some '@')
    (htarget : (c.advance 1).peek.bind SelectorTarget.ofChar? = some target)
    (h : Opens bracket stop (c.advance 2)) :
    Confines s stop c (selector (containers room)) fun _ _ => True := by
  rw [selector, confines_bind_iff here_run, htarget]
  dsimp only
  rw [confines_bind_iff (take_run (inline_target hat htarget).le_length),
    confines_bind_iff here_run]
  by_cases hlist : (c.advance 2).peek = some '['
  · obtain rfl : bracket = .square := by
      cases bracket with
      | square => rfl
      | curly => cases hlist.symm.trans h.peek
    rw [if_pos (by simpa using hlist), map_bind]
    exact (list_confined room _ _ h).bind fun _ _ _ => .spanFrom fun _ => trivial
  · rw [if_neg (by simpa using hlist), pure_eq, confines_bind_iff (pure_run none)]
    exact .spanFrom fun _ => trivial

/-- Whatever is wrong in such an argument, the error does not reach over its end. -/
theorem argument_confined {run : Cursor → Parser RunClause} (h : Encloses stop c) :
    Confines s stop c (argument (containers room) run inMacro) fun _ _ => True := by
  rw [argument, confines_bind_iff here_run, h.startsInterpolated, if_neg Bool.false_ne_true]
  cases h with
  | @container bracket h =>
      rw [h.peek]
      cases bracket with
      | square => exact (list_confined room _ _ h).bind fun _ _ _ => .pure trivial
      | curly => exact (compound_confined room _ _ h).bind fun _ _ _ => .pure trivial
  | selector hat htarget h =>
      rw [hat]
      exact (selector_confined hat htarget h).bind fun _ _ _ => .pure trivial

/-- Arguments stay in what encloses them. -/
theorem argumentWithin_confined (h : Encloses stop c) :
    Confines s stop c (argumentWithin room inMacro) fun _ _ => True :=
  argument_confined h

/-! ### What follows a placeholder -/

variable {limit : Nat}

/-- When the error does not reach over the chunk, its placeholder covers the chunk. -/
theorem orPlaceholder_run_of_failed {p : Parser α} {placeholder : ErrorNode → α}
    {post : α → Cursor → Prop} (hlt : c < stop)
    (hchunk : c.offsetAfter (Scan.balancedChunk [] 0 c.rest) = stop.offset)
    (hp : Confines ⟨limit, .tolerant⟩ stop c p post)
    (hrun : p ⟨limit, .tolerant⟩ c = .failed error log) :
    orPlaceholder p placeholder ⟨limit, .tolerant⟩ c =
      .done (placeholder ⟨error.message, c.spanTo stop⟩)
        (log ++ [.recovered error (c.spanTo stop)]) stop := by
  have herror := hp.stop_le_of_failed hrun
  rw [orPlaceholder, orElse, hrun]
  simp only [bind_done settings_run]
  rw [bind_run, recover_run_of_chunk hlt hchunk herror]
  rfl

/-- A container of either kind, as a value. -/
def containerValue (room : Nat) : Bracket → Parser NbtValue
  | .square => NbtValue.list <$> list room
  | .curly => NbtValue.compound <$> compound room

/-- A container in the place of a value is parsed between its brackets. -/
theorem containerValue_confined (room : Nat) (bracket : Bracket) :
    ConfinesContainer s bracket (containerValue room bracket) := by
  cases bracket with
  | square => exact (list_confined room).map _
  | curly => exact (compound_confined room).map _

/-- In front of a container a value is that container or its placeholder. -/
theorem value_run_of_opens (h : Opens bracket stop c) :
    value room s c = orPlaceholder (containerValue room bracket) .error s c := by
  have hplain := (Encloses.container h).startsInterpolated
  rw [value_eq, valueOf, bind_done here_run, hplain, if_neg Bool.false_ne_true, h.peek]
  cases bracket with
  | square => rfl
  | curly => rfl

/-- A container in value position that cannot be read becomes a placeholder over all of it, and
what follows it is parsed. -/
theorem value_run_of_failed (h : Opens bracket stop c)
    (hrun : containerValue room bracket ⟨limit, .tolerant⟩ c = .failed error log) :
    value room ⟨limit, .tolerant⟩ c = .done (.error ⟨error.message, c.spanTo stop⟩)
      (log ++ [.recovered error (c.spanTo stop)]) stop := by
  rw [value_run_of_opens h]
  exact orPlaceholder_run_of_failed h.lt h.balancedChunk (containerValue_confined room _ _ _ h) hrun

/-! ### The arguments after a placeholder -/

/-- In tolerant mode the arguments up to the end of the statement are always read, and how much
fuel there is does not matter. -/
theorem exists_argumentList_run (limit room : Nat) (inMacro afterError : Bool) (c : Cursor) :
    ∃ arguments log d, ∀ fuel, c.rest.length < fuel →
      argumentList (argumentWithin room inMacro) afterError fuel ⟨limit, .tolerant⟩ c =
        .done arguments log d := by
  have hloop := argumentList_loop limit .tolerant room inMacro
  have hends := fun fuel => hloop.ends fuel afterError c trivial
  obtain ⟨hkeeps, -⟩ := hends (c.rest.length + 1) (Nat.lt_succ_self _)
  cases hrun : argumentList (argumentWithin room inMacro) afterError (c.rest.length + 1)
      ⟨limit, .tolerant⟩ c with
  | done arguments log d =>
      exact ⟨arguments, log, d, fun fuel hfuel => (hends fuel hfuel).2.trans hrun⟩
  | failed error log => exact absurd hrun (neverFails_argumentList _ _ _ _ _ _)
  | broken fault => exact absurd hrun (hkeeps.ne_broken fault)

/-- A container is never glued to what stands before it. -/
theorem glued_of_opens {afterError : Bool} (h : Opens bracket stop gap.skipTrivia) :
    glued gap afterError = false := by
  rw [glued, h.peek]
  cases bracket with
  | square => simp [Bracket.opener]
  | curly => simp [Bracket.opener]

/-- An argument that cannot be read becomes a placeholder over all of it, and the arguments behind
it are read as after any other placeholder. -/
theorem argumentList_run_of_failed {afterError : Bool} {fuel : Nat}
    (h : Encloses stop gap.skipTrivia) (hglued : glued gap afterError = false)
    (hfuel : gap.rest.length < fuel)
    (hrun : argumentWithin room inMacro ⟨limit, .tolerant⟩ gap.skipTrivia = .failed error log) :
    ∃ more later d,
      argumentList (argumentWithin room inMacro) true fuel ⟨limit, .tolerant⟩ stop =
        .done more later d ∧
      argumentList (argumentWithin room inMacro) afterError fuel ⟨limit, .tolerant⟩ gap =
        .done (.error ⟨error.message, gap.skipTrivia.spanTo stop⟩ :: more)
          (log ++ .recovered error (gap.skipTrivia.spanTo stop) :: later) d := by
  obtain ⟨fuel, rfl⟩ := Nat.exists_eq_succ_of_ne_zero (Nat.ne_zero_of_lt hfuel)
  have hlength := Cursor.length_lt_of_lt (gap.le_skipTrivia.trans_lt h.lt)
  obtain ⟨more, later, d, hmore⟩ := exists_argumentList_run limit room inMacro true stop
  have hfirst : orPlaceholder (argumentWithin room inMacro) .error ⟨limit, .tolerant⟩
      gap.skipTrivia = .done (.error ⟨error.message, gap.skipTrivia.spanTo stop⟩)
        (log ++ [.recovered error (gap.skipTrivia.spanTo stop)]) stop :=
    orPlaceholder_run_of_failed h.lt h.balancedChunk (argumentWithin_confined h) hrun
  refine ⟨more, later, d, hmore _ (by omega), ?_⟩
  rw [argumentList_run_cons h.atLineEnd, hglued, if_neg Bool.false_ne_true, bind_run, hfirst,
    Outcome.andThen_done, isPlaceholder, bind_run, hmore fuel (by omega)]
  simp [pure_run]

end Parser

end Mcfunction
