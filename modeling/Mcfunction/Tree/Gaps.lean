import Mcfunction.Tree.Outline

/-!
# Gaps

The gaps of a tree are the places between its tokens where blanks and line continuations stand:
between the name of a command and its first argument, from each argument to the next, and between a
`run` and its command. A gap may be empty in front of a bracket or a brace.
-/

namespace Mcfunction

mutual

/-- The gaps in an argument. -/
def Argument.gaps : Argument → List Span
  | .run clause => clause.gaps
  | .coordinates _ | .string _ | .number _ | .resource _ | .selector _ | .list _ | .compound _
  | .boolean _ | .fakePlayer _ | .path _ | .keyword _ | .interpolated _ | .error _ => []

/-- The gap after the `run` and those of the command. -/
def RunClause.gaps : RunClause → List Span
  | ⟨subcommand, span⟩ => ⟨span.start + 3, subcommand.span.start⟩ :: subcommand.gaps

/-- The gaps of the command of a run clause. -/
def Subcommand.gaps : Subcommand → List Span
  | .command plain => plain.gaps
  | .macroCommand line => line.gaps

/-- The gaps of a command. -/
def Command.gaps : Command → List Span
  | ⟨name, arguments, _⟩ => Argument.gapsAfter name.span.stop arguments

/-- The gaps of a macro command. -/
def MacroCommand.gaps : MacroCommand → List Span
  | ⟨name, arguments, _⟩ => Argument.gapsAfter name.span.stop arguments

/-- The gaps in front of and in the arguments that follow what ends at an offset. -/
def Argument.gapsAfter : Nat → List Argument → List Span
  | _, [] => []
  | stop, first :: arguments =>
    ⟨stop, first.span.start⟩ :: (first.gaps ++ Argument.gapsAfter first.span.stop arguments)

end

/-- The gaps of a statement. -/
def Statement.gaps : Statement → List Span
  | .command plain => plain.gaps
  | .macroCommand line => line.gaps
  | .comment _ => []
  | .error _ => []

/-- The gaps of a document. -/
def Document.gaps (document : Document) : List Span :=
  document.statements.flatMap Statement.gaps

/-- A gap of several arguments is before the first, within it or behind it. -/
theorem Argument.mem_gapsAfter_cons {gap : Span} {stop : Nat} {first : Argument}
    {arguments : List Argument} : gap ∈ gapsAfter stop (first :: arguments) ↔
      gap = ⟨stop, first.span.start⟩ ∨ gap ∈ first.gaps ∨
        gap ∈ gapsAfter first.span.stop arguments := by
  rw [gapsAfter, List.mem_cons, List.mem_append]

end Mcfunction
