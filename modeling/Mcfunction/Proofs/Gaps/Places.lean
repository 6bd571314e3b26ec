import Mcfunction.Proofs.Gaps.Command
import Mcfunction.Tree.Gaps

/-!
# Where Gaps Stand

Each gap of a document is made of trivia: it starts where something ends, and where the trivia from
there on end, something else starts on the same line.

## Main results

* `StatementsAt.gaps_open`: the gaps of statements.
-/

namespace Mcfunction

variable {origin c d : Cursor} {room : Nat} {inMacro : Bool}

/-- The gap is made of trivia in front of something. -/
def Span.Opens (origin : Cursor) (gap : Span) : Prop :=
  ∃ c, origin ≤ c ∧ gap = c.spanTo c.skipTrivia ∧ Scan.atLineEnd c.skipTrivia.rest = false

/-- What stands somewhere does not stand at the end of a line. -/
theorem Placed.atLineEnd {span : Span} (h : Placed c span d) :
    Scan.atLineEnd c.rest = false := by
  rw [Bool.eq_false_iff]
  intro hline
  have hend := h.within.le_end
  rw [Cursor.statementEnd, Scan.statement_of_atLineEnd hline, Cursor.advance_zero] at hend
  exact absurd (h.lt.trans_le hend) (lt_irrefl c)

/-- The trivia in front of a piece. -/
theorem Placed.opens {span : Span} (horigin : origin ≤ c) (h : Placed c.skipTrivia span d) :
    Span.Opens origin ⟨c.offset, span.start⟩ :=
  ⟨c, horigin, by rw [h.span_eq]; rfl, h.atLineEnd⟩

/-- The gaps of the arguments between two places are made of trivia. -/
def ArgumentsOpen (origin : Cursor) (arguments : Cursor → List Argument → Cursor → Prop) : Prop :=
  ∀ c args d, origin ≤ c → arguments c args d →
    ∀ gap ∈ Argument.gapsAfter c.offset args, gap.Opens origin

theorem ArgumentListAt.gaps_open {argument : Cursor → Argument → Cursor → Prop}
    {afterError : Bool} {arguments : List Argument}
    (hplaced : ∀ {c value d}, argument c value d → Placed c value.span d)
    (hargument : ∀ {c value d}, origin ≤ c → argument c value d →
      ∀ gap ∈ value.gaps, gap.Opens origin)
    (horigin : origin ≤ c) (h : ArgumentListAt argument afterError c arguments d) :
    ∀ gap ∈ Argument.gapsAfter c.offset arguments, gap.Opens origin := by
  induction h with
  | nil => exact List.forall_mem_nil _
  | @cons _ c d _ first _ _ _ hfirst _ ih =>
      have hspan := hplaced hfirst
      have hstart := horigin.trans c.le_skipTrivia
      have hstop : first.span.stop = d.offset := by rw [hspan.span_eq]; rfl
      intro gap hgap
      rcases Argument.mem_gapsAfter_cons.mp hgap with rfl | hgap | hgap
      · exact hspan.opens horigin
      · exact hargument hstart hfirst gap hgap
      · exact ih (hstart.trans hspan.le) gap (hstop ▸ hgap)
  | @error _ c d _ node _ _ hnode _ ih =>
      have hspan := hnode.placed
      have hstart := horigin.trans c.le_skipTrivia
      have hstop : node.span.stop = d.offset := by rw [hspan.span_eq]; rfl
      intro gap hgap
      rcases Argument.mem_gapsAfter_cons.mp hgap with rfl | hgap | hgap
      · exact hspan.opens horigin
      · cases hgap
      · exact ih (hstart.trans hspan.le) gap (hstop ▸ hgap)

theorem Parser.subcommandOf_gaps (command : Command) :
    (Parser.subcommandOf command).gaps = command.gaps := by
  obtain ⟨name, arguments, span⟩ := command
  unfold Parser.subcommandOf
  split <;> rfl

section Commands

variable {arguments : Bool → Cursor → List Argument → Cursor → Prop}
  (hplaced : ∀ inMacro, ArgumentsPlaced (arguments inMacro))
  (harguments : ∀ inMacro, ArgumentsOpen origin (arguments inMacro))

include harguments

theorem CommandAt.gaps_open {command : Command} (horigin : origin ≤ c)
    (h : CommandAt (arguments inMacro) c command d) :
    ∀ gap ∈ command.gaps, gap.Opens origin := by
  obtain ⟨hname, h⟩ := h
  have hlen := (Scan.inline_commandName hname).le_length
  exact harguments inMacro _ _ _ (horigin.trans (Cursor.le_advance hlen)) h

theorem MacroCommandAt.gaps_open {command : MacroCommand} (horigin : origin ≤ c)
    (h : MacroCommandAt (arguments inMacro) c command d) :
    ∀ gap ∈ command.gaps, gap.Opens origin := by
  obtain ⟨hdollar, hname, h⟩ := h
  have hopen : c ≤ (c.advance 1).skipTrivia :=
    (Cursor.le_advance_of_peek hdollar).trans (Cursor.le_skipTrivia _)
  have hspan := hname.placed
  have hopens := harguments inMacro _ _ _ (horigin.trans (hopen.trans hspan.le)) h
  rw [MacroCommand.gaps, hspan.span_eq]
  exact hopens

include hplaced

/-- What follows a `run` of so many bytes. -/
theorem RunClauseAt.gaps_open {start : Cursor} {clause : RunClause} (horigin : origin ≤ c)
    (hoffset : c.offset = start.offset + 3)
    (h : RunClauseAt arguments inMacro start c clause d) :
    ∀ gap ∈ clause.gaps, gap.Opens origin := by
  have hstart := horigin.trans c.le_skipTrivia
  cases h with
  | command h =>
      have hopens := (h.placed (hplaced inMacro)).opens horigin
      rw [hoffset] at hopens
      rw [RunClause.gaps, Parser.subcommandOf_span, Parser.subcommandOf_gaps]
      exact List.forall_mem_cons.mpr ⟨hopens, h.gaps_open harguments hstart⟩
  | macroCommand h =>
      have hopens := (h.placed (hplaced true)).opens horigin
      rw [hoffset] at hopens
      exact List.forall_mem_cons.mpr ⟨hopens, h.gaps_open harguments hstart⟩

end Commands

theorem Cursor.take_of_run {n : Nat} (h : c.textBetween 0 n = "run") :
    c.rest.take n = ['r', 'u', 'n'] := by
  have := congrArg String.toList h
  rwa [Cursor.textBetween, String.toList_ofList, List.drop_zero, Nat.sub_zero] at this

/-- The word `run` has three bytes. -/
theorem Cursor.offset_of_run {n : Nat} (hlen : n ≤ c.rest.length)
    (h : c.textBetween 0 n = "run") : (c.advance n).offset = c.offset + 3 := by
  rw [Cursor.advance_offset hlen, Cursor.take_of_run h]
  rfl

theorem ArgumentAt.gaps_open {run : Cursor → Cursor → RunClause → Cursor → Prop}
    {argument : Argument}
    (hrun : ∀ {start c clause d}, origin ≤ c → c.offset = start.offset + 3 → run start c clause d →
      ∀ gap ∈ clause.gaps, gap.Opens origin)
    (horigin : origin ≤ c) (h : ArgumentAt room run inMacro c argument d) :
    ∀ gap ∈ argument.gaps, gap.Opens origin := by
  cases h with
  | run hword htext _ h =>
      have hlen := (Scan.inline_word hword).le_length
      exact hrun (horigin.trans (Cursor.le_advance hlen)) (Cursor.offset_of_run hlen htext) h
  | _ => exact List.forall_mem_nil _

/-- The gaps of the arguments of a command, at any depth. -/
theorem ArgumentsAt.gaps_open (origin : Cursor) (room : Nat) (inMacro : Bool) :
    ArgumentsOpen origin (ArgumentsAt room inMacro) := by
  induction room generalizing inMacro with
  | zero =>
      intro c args d horigin h
      exact ArgumentListAt.gaps_open (fun h => h.placed fun _ _ _ _ h => h.elim)
        (fun horigin h => h.gaps_open (fun _ _ h => h.elim) horigin) horigin h
  | succ room ih =>
      have hargs := ArgumentsAt.argumentsPlaced room
      intro c args d horigin h
      rw [ArgumentsAt] at h
      exact h.gaps_open (fun h => h.placed fun _ _ _ _ h => h.within hargs)
        (fun horigin h => h.gaps_open
          (fun horigin hoffset h => h.gaps_open hargs ih horigin hoffset) horigin) horigin

theorem StatementAt.gaps_open {statement : Statement} (horigin : origin ≤ c)
    (h : StatementAt (ArgumentsAt room) c statement d) :
    ∀ gap ∈ statement.gaps, gap.Opens origin := by
  have harguments := ArgumentsAt.gaps_open origin room
  cases h with
  | comment => exact List.forall_mem_nil _
  | command h => exact h.gaps_open harguments horigin
  | macroCommand h => exact h.gaps_open harguments horigin
  | error => exact List.forall_mem_nil _

theorem StatementsAt.gaps_open {statements : List Statement} (horigin : origin ≤ c)
    (h : StatementsAt (ArgumentsAt room) c statements) :
    ∀ gap ∈ statements.flatMap Statement.gaps, gap.Opens origin := by
  induction h with
  | nil => exact List.forall_mem_nil _
  | newline hpeek _ ih =>
      have hone := Cursor.length_pos_of_peek hpeek
      exact ih ((horigin.trans (Cursor.le_skipTrivia _)).trans (Cursor.le_advance hone))
  | cons hline hfirst _ ih =>
      have hstart := horigin.trans (Cursor.le_skipTrivia _)
      have hforward := hfirst.forward (ArgumentsAt.argumentsPlaced room) hline
      rw [List.flatMap_cons]
      exact List.forall_mem_append.mpr ⟨hfirst.gaps_open hstart, ih (hstart.trans hforward.1.le)⟩

end Mcfunction
