import Mcfunction.Proofs.Parser.Command
import Mcfunction.Proofs.Spans.Text
import Mcfunction.Tree.Outline

/-!
# The Space between Arguments

The arguments of a command are separated from its name and from each other by blanks and line
continuations. Nothing at all may stand between two of them before a bracket or a brace and next
to a placeholder.

## Main results

* `ArgumentsAt.spaced`: the arguments of a command, and of all commands in them, are spaced.
-/

namespace Mcfunction

/-- The text of the span starts with a bracket or a brace. -/
def Span.StartsContainer (text : String) (span : Span) : Prop :=
  ∃ piece, span.slice? text = some piece ∧
    (piece.toList.head? = some '[' ∨ piece.toList.head? = some '{')

/-- Filler stands between what is `before` and the first argument, and from each argument to the
next. It is empty only in front of a bracket or a brace and next to a placeholder;
`afterError` tells whether what is `before` is one. -/
inductive Spaced (text : String) : Span → Bool → List Argument → Prop
  /-- No argument. -/
  | nil {before afterError} : Spaced text before afterError []
  /-- An argument and the gap before it. -/
  | cons {before afterError gap first arguments} :
      (Span.mk before.stop first.span.start).slice? text = some gap →
      Filler false gap.toList →
      (gap = "" → first.span.StartsContainer text ∨ Parser.isPlaceholder first = true ∨
        afterError = true) →
      Spaced text first.span (Parser.isPlaceholder first) arguments →
      Spaced text before afterError (first :: arguments)

/-- The arguments of a command are spaced from its name on. -/
def Invocation.Spaced (text : String) (invocation : Invocation) : Prop :=
  Mcfunction.Spaced text invocation.name false invocation.arguments

variable {text : String} {c d : Cursor}

/-- A piece in front of which a bracket or a brace is seen starts with it. -/
theorem Placed.startsContainer {span : Span} (htext : Cursor.start text ≤ c)
    (h : Placed c span d) (hpeek : c.peek = some '[' ∨ c.peek = some '{') :
    span.StartsContainer text := by
  obtain ⟨chars, hrest, hoff⟩ := h.le
  have hlt := Cursor.length_lt_of_lt h.lt
  rw [hrest, List.length_append] at hlt
  obtain ⟨x, chars, rfl⟩ := List.exists_cons_of_length_pos (l := chars) (by omega)
  refine ⟨_, h.span_eq ▸ Cursor.slice?_spanTo htext hrest hoff, ?_⟩
  rw [Cursor.peek, hrest] at hpeek
  rwa [String.toList_ofList]

/-- The gap in front of an argument. -/
theorem exists_gap {before span : Span} (htext : Cursor.start text ≤ c)
    (hbefore : before.stop = c.offset) (hspan : Placed c.skipTrivia span d) :
    ∃ gap, (Span.mk before.stop span.start).slice? text = some gap ∧
      Filler false gap.toList ∧ (gap = "" → c.skipTrivia = c) := by
  have hfilled : Filled false c c.skipTrivia := .skipTrivia c
  obtain ⟨chars, hfiller, hrest, hoff⟩ := hfilled
  refine ⟨String.ofList chars, ?_, ?_, fun hgap => ?_⟩
  · rw [hbefore, hspan.span_eq]
    exact Cursor.slice?_spanTo htext hrest hoff
  · rwa [String.toList_ofList]
  · have hchars : chars = [] := String.ofList_eq_empty_iff.mp hgap
    rw [hchars] at hrest hoff
    have hback : c.skipTrivia ≤ c := by
      refine ⟨[], hrest.symm, ?_⟩
      rw [hoff]
      rfl
    exact le_antisymm hback c.le_skipTrivia

theorem ArgumentListAt.spaced {argument : Cursor → Argument → Cursor → Prop}
    {afterError : Bool} {arguments : List Argument}
    (hplaced : ∀ {c value d}, argument c value d → Placed c value.span d)
    (hplaceholder : ∀ {c value d}, argument c value d → Parser.isPlaceholder value = false)
    (htext : Cursor.start text ≤ c) (h : ArgumentListAt argument afterError c arguments d) :
    ∀ before : Span, before.stop = c.offset → Spaced text before afterError arguments := by
  induction h with
  | nil => exact fun _ _ => .nil
  | @cons afterError c d _ first _ _ hopener hfirst _ ih =>
      intro before hbefore
      have hspan := hplaced hfirst
      have hstart := htext.trans c.le_skipTrivia
      obtain ⟨gap, hslice, hfiller, hempty⟩ := exists_gap htext hbefore hspan
      refine .cons hslice hfiller (fun hgap => ?_) ?_
      · rcases afterError with _ | _
        · have hopen := hopener (hempty hgap) rfl
          rw [← hempty hgap] at hopen
          exact .inl (hspan.startsContainer hstart hopen)
        · exact .inr (.inr rfl)
      · rw [hplaceholder hfirst]
        exact ih (hstart.trans hspan.le) _ (by rw [hspan.span_eq]; rfl)
  | @error afterError c d _ node _ _ hnode _ ih =>
      intro before hbefore
      have hspan := hnode.placed
      obtain ⟨gap, hslice, hfiller, -⟩ := exists_gap htext hbefore hspan
      refine .cons hslice hfiller (fun _ => .inr (.inl rfl)) ?_
      exact ih ((htext.trans c.le_skipTrivia).trans hspan.le) node.span
        (by rw [hspan.span_eq]; rfl)

/-! ### The commands in a command -/

/-- The arguments between two places are spaced from there on, and so are those of all commands
in them. -/
def ArgumentsSpaced (text : String) (arguments : Cursor → List Argument → Cursor → Prop) : Prop :=
  ∀ c args d, Cursor.start text ≤ c → arguments c args d →
    (∀ before : Span, before.stop = c.offset → Spaced text before false args) ∧
      ∀ invocation ∈ Argument.allInvocations args, invocation.Spaced text

theorem CommandAt.spaced {arguments : Cursor → List Argument → Cursor → Prop}
    {command : Command} (harguments : ArgumentsSpaced text arguments)
    (htext : Cursor.start text ≤ c) (h : CommandAt arguments c command d) :
    ∀ invocation ∈ command.invocations, invocation.Spaced text := by
  obtain ⟨hname, h⟩ := h
  have hlen := (Scan.inline_commandName hname).le_length
  obtain ⟨hspaced, hinner⟩ := harguments _ _ _ (htext.trans (Cursor.le_advance hlen)) h
  exact List.forall_mem_cons.mpr ⟨hspaced _ rfl, hinner⟩

theorem MacroCommandAt.spaced {arguments : Cursor → List Argument → Cursor → Prop}
    {command : MacroCommand} (harguments : ArgumentsSpaced text arguments)
    (htext : Cursor.start text ≤ c) (h : MacroCommandAt arguments c command d) :
    ∀ invocation ∈ command.invocations, invocation.Spaced text := by
  obtain ⟨hdollar, hname, h⟩ := h
  have hopen : c ≤ (c.advance 1).skipTrivia :=
    (Cursor.le_advance_of_peek hdollar).trans (Cursor.le_skipTrivia _)
  have hplaced := hname.placed
  obtain ⟨hspaced, hinner⟩ := harguments _ _ _ (htext.trans (hopen.trans hplaced.le)) h
  exact List.forall_mem_cons.mpr ⟨hspaced _ (by rw [hplaced.span_eq]; rfl), hinner⟩

theorem subcommandOf_invocations (command : Command) :
    (Parser.subcommandOf command).invocations = command.invocations := by
  obtain ⟨name, arguments, span⟩ := command
  unfold Parser.subcommandOf
  split <;> rfl

theorem RunClauseAt.spaced {arguments : Bool → Cursor → List Argument → Cursor → Prop}
    {inMacro : Bool} {start : Cursor} {clause : RunClause}
    (harguments : ∀ inMacro, ArgumentsSpaced text (arguments inMacro))
    (htext : Cursor.start text ≤ c) (h : RunClauseAt arguments inMacro start c clause d) :
    ∀ invocation ∈ clause.invocations, invocation.Spaced text := by
  have hstart := htext.trans c.le_skipTrivia
  cases h with
  | command h =>
      rw [RunClause.invocations, subcommandOf_invocations]
      exact h.spaced (harguments _) hstart
  | macroCommand h => exact h.spaced (harguments true) hstart

theorem ArgumentAt.spaced {room : Nat} {run : Cursor → Cursor → RunClause → Cursor → Prop}
    {inMacro : Bool} {argument : Argument}
    (hrun : ∀ {start c clause d}, Cursor.start text ≤ c → run start c clause d →
      ∀ invocation ∈ clause.invocations, invocation.Spaced text)
    (htext : Cursor.start text ≤ c) (h : ArgumentAt room run inMacro c argument d) :
    ∀ invocation ∈ argument.invocations, invocation.Spaced text := by
  cases h with
  | run hword _ _ h =>
      exact hrun (htext.trans (Cursor.le_advance (Scan.inline_word hword).le_length)) h
  | _ => exact List.forall_mem_nil _

theorem ArgumentListAt.allInvocations_spaced
    {argument : Cursor → Argument → Cursor → Prop} {afterError : Bool}
    {arguments : List Argument} (hforward : Forward argument)
    (hargument : ∀ {c value d}, Cursor.start text ≤ c → argument c value d →
      ∀ invocation ∈ value.invocations, invocation.Spaced text)
    (htext : Cursor.start text ≤ c) (h : ArgumentListAt argument afterError c arguments d) :
    ∀ invocation ∈ Argument.allInvocations arguments, invocation.Spaced text := by
  induction h with
  | nil => exact List.forall_mem_nil _
  | @cons _ c _ _ _ _ _ _ hfirst _ ih =>
      have hstart := htext.trans c.le_skipTrivia
      have hrest := ih (hstart.trans (hforward _ _ _ hfirst).1.le)
      exact List.forall_mem_append.mpr ⟨hargument hstart hfirst, hrest⟩
  | @error _ c _ _ _ _ _ hnode _ ih =>
      exact ih ((htext.trans c.le_skipTrivia).trans hnode.placed.le)

/-- Arguments are spaced if those after each `run` are. -/
theorem ArgumentListAt.argumentsSpaced {room : Nat}
    {run : Cursor → Cursor → RunClause → Cursor → Prop} {inMacro : Bool}
    (hwithin : ∀ c d clause e, run c d clause e → Within d e ∧ clause.span = c.spanTo e)
    (hrun : ∀ {start c clause d}, Cursor.start text ≤ c → run start c clause d →
      ∀ invocation ∈ clause.invocations, invocation.Spaced text) :
    ArgumentsSpaced text (ArgumentListAt (ArgumentAt room run inMacro) false) := by
  intro c args d htext h
  have hplaced : ∀ {c value d}, ArgumentAt room run inMacro c value d →
      Placed c value.span d := fun h => h.placed hwithin
  constructor
  · exact h.spaced hplaced Parser.isPlaceholder_eq_false htext
  · exact h.allInvocations_spaced (fun _ _ _ h => (hplaced h).forward)
      (fun htext h => h.spaced hrun htext) htext

/-- The arguments of a command are spaced, and so are those of all commands in them. -/
theorem ArgumentsAt.spaced (text : String) (room : Nat) (inMacro : Bool) :
    ArgumentsSpaced text (ArgumentsAt room inMacro) := by
  induction room generalizing inMacro with
  | zero =>
      exact ArgumentListAt.argumentsSpaced (fun _ _ _ _ h => h.elim) fun _ h => h.elim
  | succ room ih =>
      have hargs := ArgumentsAt.argumentsPlaced room
      rw [ArgumentsAt]
      exact ArgumentListAt.argumentsSpaced (fun _ _ _ _ h => h.within hargs) fun htext h =>
        h.spaced ih htext

/-- So are those of all commands of a statement. -/
theorem StatementAt.spaced {arguments : Bool → Cursor → List Argument → Cursor → Prop}
    {statement : Statement} (harguments : ∀ inMacro, ArgumentsSpaced text (arguments inMacro))
    (htext : Cursor.start text ≤ c) (h : StatementAt arguments c statement d) :
    ∀ invocation ∈ statement.invocations, invocation.Spaced text := by
  cases h with
  | comment => exact List.forall_mem_nil _
  | command h => exact h.spaced (harguments false) htext
  | macroCommand h => exact h.spaced (harguments true) htext
  | error => exact List.forall_mem_nil _

end Mcfunction
