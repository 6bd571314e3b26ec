import Mcfunction.Proofs.Gaps.Crossing

/-!
# Statements across a Gap

The loop over the statements of a text takes the same turns with another gap: the statements before
the one with the gap in it are read in front of it, the others behind it.

## Main results

* `statements_crosses`: the statements up to the end of the text.
-/

namespace Mcfunction

namespace Parser

variable {seam : Seam} {s : Settings} {origin c d : Cursor} {room limit : Nat} {log : List Event}

/-! ### Statements -/

theorem macroStatement_eq_done {arguments : Parser (List Argument)} {value : Statement}
    (h : macroStatement arguments s c = .done value log d) :
    ∃ command log', macroCommand arguments s c = .done command log' d ∧
      value = .macroCommand command := by
  rw [macroStatement, bind_done here_run, bind_run] at h
  obtain ⟨command, earlier, e, later, hcommand, hrest, -⟩ := Outcome.andThen_eq_done h
  rcases hslice : c.slice? command.span.start command.span.stop with _ | chars
  · rw [bind_run, slice, hslice] at hrest
    cases hrest
  · have hfound : slice c command.span.start command.span.stop s e = .done chars [] e := by
      rw [slice, hslice]
      rfl
    rw [bind_done hfound] at hrest
    split at hrest <;> cases hrest <;> exact ⟨command, _, hcommand, rfl⟩

theorem exists_macroStatement {command : MacroCommand} (hdollar : c.peek = some '$')
    (h : macroCommand (arguments room true) ⟨limit, .strict⟩ c = .done command log d) :
    ∃ log', macroStatement (arguments room true) ⟨limit, .strict⟩ c =
      .done (.macroCommand command) log' d := by
  have hplaced := ArgumentsAt.argumentsPlaced room
  have hread := ((macroCommand_reads hplaced (arguments_reads room) true hdollar).post_of_run
    h).placed (hplaced true)
  obtain ⟨n, hn, rfl⟩ := Cursor.le_iff_exists_advance.mp hread.le
  have hslice : slice c command.span.start command.span.stop ⟨limit, .strict⟩ (c.advance n) =
      .done (c.rest.take n) [] (c.advance n) := by
    rw [hread.span_eq]
    exact slice_run c.offset_eq_advance_zero (Nat.zero_le _) hn
  rw [macroStatement, bind_done here_run, bind_run, h, Outcome.andThen_done, bind_done hslice]
  split <;> exact ⟨_, rfl⟩

/-- In a strict parse no placeholder stands for a statement. -/
theorem anyStatement_eq_done {arguments : Bool → Parser (List Argument)} {value : Statement}
    (hs : s.mode = .strict) (h : anyStatement arguments s c = .done value log d) :
    ∃ log', statement arguments s c = .done value log' d := by
  rw [anyStatement, bind_done here_run, bind_run] at h
  obtain ⟨first, earlier, e, later, hfirst, hrest, -⟩ := Outcome.andThen_eq_done h
  cases hrest
  refine ⟨earlier, orElse_eq_done (fun error value log d hrun => ?_) hfirst⟩
  rw [bind_done settings_run, hs] at hrun
  cases hrun

theorem exists_anyStatement {arguments : Bool → Parser (List Argument)} {value : Statement}
    (h : statement arguments s c = .done value log d) :
    ∃ log', anyStatement arguments s c = .done value log' d := by
  rw [anyStatement, bind_done here_run, bind_run, orElse_done h]
  exact ⟨_, rfl⟩

/-- A statement in front of the seam stays as it is. -/
theorem anyStatement_relocate {value : Statement} (hblank : Scan.trivia c.rest = 0)
    (hline : Scan.atLineEnd c.rest = false)
    (hrun : anyStatement (arguments room) ⟨limit, .strict⟩ c = .done value log d)
    (hd : d ≤ seam.cut) : relocate seam.offset value = value := by
  have hplaced := ArgumentsAt.argumentsPlaced room
  have hread := (anyStatement_reads hplaced (arguments_reads room) c).post_of_run hrun
  obtain ⟨e, hat, hfilled⟩ := hread.outlined hplaced (ArgumentsAt.outlined room) hblank hline
  exact Statement.relocate_eq_self (Seam.fixed hat (hfilled.le.trans hd))

section

variable (hcut : origin ≤ seam.cut)

include hcut

theorem statement_crosses (hc : origin ≤ c) :
    Crosses seam ⟨limit, .strict⟩ c (statement (arguments room)) (statement (arguments room))
      fun statement => seam.gap ∈ statement.gaps := by
  have hargs : ArgumentsCross seam limit room origin := arguments_crosses hcut room
  nth_rewrite 1 [statement]
  refine .of_here_bind ?_
  split
  · intro value log d hrun hgap
    rw [bind_done comment_run] at hrun
    cases hrun
    cases hgap
  · rename_i hdollar
    intro value log d hrun hgap
    obtain ⟨command, _, hcommand, rfl⟩ := macroStatement_eq_done hrun
    obtain ⟨hcc, hd, log', hcommand'⟩ := macroCommand_crosses hargs hc hdollar _ _ _ hcommand hgap
    have hdollar' : (seam.place c).peek = some '$' := Seam.place_peek_eq_some hdollar (by decide)
    refine ⟨hcc, hd, ?_⟩
    rw [statement, bind_done here_run, hdollar']
    exact exists_macroStatement hdollar' hcommand'
  · rename_i x _ _ hpeek
    split
    · rename_i hlower
      intro value log d hrun hgap
      rw [bind_run] at hrun
      obtain ⟨command, _, _, _, hcommand, hpure, -⟩ := Outcome.andThen_eq_done hrun
      cases hpure
      obtain ⟨hcc, hd, log', hcommand'⟩ := command_crosses hargs hc _ _ _ hcommand hgap
      have hx : Scan.isGapChar x = false := by
        rw [Bool.eq_false_iff]
        intro hgap
        rw [Scan.isGapChar_not_mem (p := Char.isLower) hgap (by decide)] at hlower
        cases hlower
      refine ⟨hcc, hd, log' ++ [], ?_⟩
      rw [statement_run_lower (Seam.place_peek_eq_some hpeek hx) hlower, bind_run, hcommand']
      rfl
    · exact .of_never failAt_never
  · exact .of_never failAt_never

theorem anyStatement_crosses (hc : origin ≤ c) :
    Crosses seam ⟨limit, .strict⟩ c (anyStatement (arguments room))
      (anyStatement (arguments room)) fun statement => seam.gap ∈ statement.gaps := by
  intro value log d hrun hgap
  obtain ⟨log, hrun⟩ := anyStatement_eq_done rfl hrun
  obtain ⟨hcc, hd, log', hrun'⟩ := statement_crosses hcut hc _ _ _ hrun hgap
  exact ⟨hcc, hd, exists_anyStatement hrun'⟩

/-- The loop reaches the gap in some turn. -/
theorem statements_crosses {fuel fuel' : Nat} (hc : origin ≤ c) (hfuel : c.rest.length < fuel)
    (hfuel' : c ≤ seam.cut → (seam.place c).rest.length < fuel') :
    Crosses seam ⟨limit, .strict⟩ c (statements (arguments room) fuel)
      (statements (arguments room) fuel')
      fun statements => seam.gap ∈ statements.flatMap Statement.gaps := by
  induction fuel generalizing c fuel' with
  | zero => exact absurd hfuel (Nat.not_lt_zero _)
  | succ fuel ih =>
      have hplaced := ArgumentsAt.argumentsPlaced room
      refine .of_turn hfuel' fun k hk => ?_
      have hpeek' : c.skipTrivia ≤ seam.cut →
          (seam.place c).skipTrivia.peek = c.skipTrivia.peek := fun h => by
        rw [Seam.place_skipTrivia h, Seam.place_peek_of_trivia c.trivia_skipTrivia]
      intro found log e hrun hgap
      rcases hpeek : c.skipTrivia.peek with _ | x
      · rw [statements_run_nil hpeek] at hrun
        cases hrun
        cases hgap
      have hone := Cursor.length_pos_of_peek hpeek
      by_cases hx : x = '\n'
      · subst hx
        have hcd := c.le_skipTrivia.trans_lt (Cursor.lt_advance Nat.one_pos hone)
        have hdrop := Cursor.length_lt_of_lt hcd
        have hless := Seam.length_place_lt_of_turn hfuel' hk hcd
        rw [statements_run_newline hpeek] at hrun
        obtain ⟨hd, he, log', hrun'⟩ := ih (hc.trans hcd.le) (by omega) hless _ _ _ hrun hgap
        have hskip := (Cursor.le_advance hone).trans hd
        refine ⟨hcd.le.trans hd, he, log', ?_⟩
        rw [statements_run_newline ((hpeek' hskip).trans hpeek), Seam.place_skipTrivia hskip,
          Seam.place_advance hone hd]
        exact hrun'
      · obtain ⟨first, earlier, d, others, later, hfirst, hothers, rfl, rfl⟩ :=
          statements_eq_done_cons hpeek hx hrun
        have hline : Scan.atLineEnd c.skipTrivia.rest = false := by
          obtain ⟨rest, hrest⟩ := List.head?_eq_some_iff.mp hpeek
          rw [hrest]
          simpa [Scan.atLineEnd] using hx
        have hread := (anyStatement_reads hplaced (arguments_reads room) _).post_of_run hfirst
        have hcd := c.le_skipTrivia.trans_lt (hread.forward hplaced hline).1
        have hdrop := Cursor.length_lt_of_lt hcd
        rw [List.flatMap_cons, List.mem_append] at hgap
        rcases hgap with hinside | hlater
        · -- the gap stands in this statement
          obtain ⟨hskip, hd, log', hfirst'⟩ :=
            anyStatement_crosses hcut (hc.trans c.le_skipTrivia) _ _ _ hfirst hinside
          have hcc := c.le_skipTrivia.trans hskip
          have hleft := hk hcc ▸ hfuel' hcc
          have hlen := Seam.length_lt_of_right_le hcc hd
          obtain ⟨he, log'', hothers'⟩ :=
            statements_behind hd (by omega) (by omega : _ < k) _ _ _ hothers
          exact ⟨hcc, he, exists_statements_cons ((hpeek' hskip).trans hpeek) hx
            (Seam.place_skipTrivia hskip ▸ hfirst') hothers'⟩
        · -- the gap stands behind it
          have hless := Seam.length_place_lt_of_turn hfuel' hk hcd
          obtain ⟨hd, he, log', hothers'⟩ :=
            ih (hc.trans hcd.le) (by omega) hless _ _ _ hothers hlater
          obtain ⟨hbefore, hsame⟩ := anyStatement_local (arguments_local room) hplaced
            (arguments_reads room) _ _ _ hfirst
          obtain ⟨log'', hfirst'⟩ := hsame hd
          have hskip := hbefore.trans hd
          refine ⟨hcd.le.trans hd, he, ?_⟩
          rw [relocate_cons, anyStatement_relocate c.trivia_skipTrivia hline hfirst hd]
          exact exists_statements_cons ((hpeek' hskip).trans hpeek) hx
            (Seam.place_skipTrivia hskip ▸ hfirst') hothers'

end

end Parser

end Mcfunction
