import Mcfunction.Proofs.Parser.Document
import Mcfunction.Proofs.Written.Container

/-!
# Reading Back What Was Written

A printable list or compound, written after the name of a command, is read as the only argument
of that command and as the same tree, up to places.

## Main results

* `parse_written`: the strict parse of a written tree, for every limit that lets it nest as
  deep as it does.
-/

namespace Mcfunction

namespace Parser

variable {s : Settings} {c : Cursor} {room fuel : Nat}

/-- A list or compound as an argument, whatever parses the run clauses. -/
theorem argument_parses {root : NbtValue} (hroot : root.argument?.isSome) (h : root.Printable)
    (hnest : root.nest ≤ room) (hrest : c.rest = root.written) :
    ∃ (found : NbtValue) (argument : Argument),
      (∀ run inMacro, Parser.argument (containers room) run inMacro s c =
        .done argument [] (c.advance root.written.length)) ∧
      found.argument? = some argument ∧ found.unplaced = root.unplaced := by
  cases h with
  | string | number | resource | boolean => cases hroot
  | @list inner h =>
      have hbracket := hrest.trans inner.written_eq
      have hplain : Scan.startsInterpolated false c.rest = false := by rw [hbracket]; rfl
      have hpeek : c.peek = some '[' := Cursor.peek_of_cons hbracket
      obtain ⟨found, hrun, hsame⟩ := list_parses h hnest s c []
        (hrest.trans (List.append_nil _).symm) trivial
      refine ⟨.list found, .list found, fun run inMacro => ?_, rfl, ?_⟩
      · rw [Parser.argument, bind_done here_run, hplain, if_neg Bool.false_ne_true, hpeek]
        exact bind_done hrun
      · rw [NbtValue.unplaced, hsame, NbtValue.unplaced]
  | @compound inner h =>
      have hbracket := hrest.trans inner.written_eq
      have hplain : Scan.startsInterpolated false c.rest = false := by rw [hbracket]; rfl
      have hpeek : c.peek = some '{' := Cursor.peek_of_cons hbracket
      obtain ⟨found, hrun, hsame⟩ := compound_parses h hnest s c []
        (hrest.trans (List.append_nil _).symm) trivial
      refine ⟨.compound found, .compound found, fun run inMacro => ?_, rfl, ?_⟩
      · rw [Parser.argument, bind_done here_run, hplain, if_neg Bool.false_ne_true, hpeek]
        exact bind_done hrun
      · rw [NbtValue.unplaced, hsame, NbtValue.unplaced]

/-- At the end of the text there are no more arguments. -/
theorem argumentList_end {argument : Parser Argument} {afterError : Bool} (hrest : c.rest = []) :
    argumentList argument afterError (fuel + 1) s c = .done [] [] c := by
  have hline : Scan.atLineEnd c.rest := by rw [hrest]; rfl
  rw [argumentList, bind_done here_run, bind_done skipTrivia_run,
    Cursor.skipTrivia_of_atLineEnd hline, bind_done here_run, if_pos hline]
  rfl

/-- One argument of a command after a blank. -/
theorem argumentList_single {argument : Parser Argument} {value : Argument} {text : List Char}
    (hrest : c.rest = ' ' :: text) (htext : StartsElement text)
    (hrun : argument s (c.advance 1) = .done value [] ((c.advance 1).advance text.length)) :
    argumentList argument false (fuel + 2) s c =
      .done [value] [] ((c.advance 1).advance text.length) := by
  have hnext : (c.advance 1).rest = text := Cursor.advance_one_of_cons hrest
  have hskip : c.skipTrivia = c.advance 1 := by
    obtain ⟨x, rest, rfl, hx⟩ := htext
    obtain ⟨hblank, hslash, -⟩ := Scan.startsElement_iff.mp hx
    have hgap := Scan.trivia_append [' '] (x :: rest) (List.forall_mem_singleton.mpr rfl)
    rw [Scan.trivia_cons_eq_zero hblank hslash] at hgap
    rw [Cursor.skipTrivia, hrest]
    exact congrArg (Cursor.advance · c) hgap
  have hline : ¬ Scan.atLineEnd (c.advance 1).rest := by
    rw [hnext, htext.atLineEnd]
    exact Bool.false_ne_true
  have hglued : ((c.advance 1).offset == c.offset && !false && (c.advance 1).peek != some '[' &&
      (c.advance 1).peek != some '{') = false := by
    have hgap : (c.advance 1).offset = c.offset + 1 := Cursor.advance_one_offset hrest rfl
    simp [hgap]
  have hend : ((c.advance 1).advance text.length).rest = [] := by
    rw [Cursor.advance_rest, hnext, List.drop_length]
  rw [argumentList, bind_done here_run, bind_done skipTrivia_run, hskip, bind_done here_run,
    if_neg hline, hglued, if_neg Bool.false_ne_true, bind_done (orPlaceholder_run hrun),
    bind_done (argumentList_end hend)]
  rfl

/-- One argument after a blank is the only one there is. -/
theorem arguments_single {inMacro : Bool} {value : Argument} {text : List Char}
    (hrest : c.rest = ' ' :: text) (htext : StartsElement text)
    (hrun : ∀ run, argument (containers room) run inMacro s (c.advance 1) =
      .done value [] ((c.advance 1).advance text.length)) :
    arguments room inMacro s c = .done [value] [] ((c.advance 1).advance text.length) := by
  obtain ⟨clause, hclause⟩ := exists_arguments_eq room inMacro
  rw [hclause, argumentsOf, bind_done here_run, hrest, List.length_cons]
  exact argumentList_single hrest htext (hrun _)

/-- A written tree after a blank is the only argument there is. -/
theorem arguments_parse {root : NbtValue} (hroot : root.argument?.isSome) (h : root.Printable)
    (hnest : root.nest ≤ room) (inMacro : Bool) (hrest : c.rest = ' ' :: root.written) :
    ∃ (found : NbtValue) (argument : Argument), arguments room inMacro s c =
        .done [argument] [] ((c.advance 1).advance root.written.length) ∧
      found.argument? = some argument ∧ found.unplaced = root.unplaced := by
  obtain ⟨found, argument, hrun, hfound, hsame⟩ := argument_parses hroot h hnest
    (Cursor.advance_one_of_cons hrest)
  exact ⟨found, argument, arguments_single hrest h.startsElement (hrun · inMacro), hfound, hsame⟩

/-! ### The command -/

/-- A command of one argument that reaches to the end of the text. -/
theorem command_single {arguments : Parser (List Argument)} {argument : Argument} {n : Nat}
    {d : Cursor} (hname : Scan.commandName c.rest = some n)
    (harguments : arguments s (c.advance n) = .done [argument] [] d) :
    ∃ span, command arguments s c = .done ⟨c.textRun n, [argument], span⟩ [] d := by
  have hend : commandEnd c.offset [argument] s d =
      .done (max argument.span.stop c.offset) [] d := rfl
  refine ⟨⟨c.offset, max argument.span.stop c.offset⟩, ?_⟩
  rw [command, bind_done here_run, bind_done (commandName_run hname), bind_done harguments,
    bind_done hend, bind_done (span_run (le_max_right _ _))]
  rfl

/-- A command that reaches to the end of the text is all there is in it. -/
theorem statements_single {arguments : Bool → Parser (List Argument)} {x : Char}
    {plain : Command} {d : Cursor} (hpeek : c.peek = some x) (hlower : x.isLower)
    (hcommand : command (arguments false) s c = .done plain [] d) (hend : d.rest = [])
    (hfuel : 2 ≤ fuel) :
    ∃ log, statements arguments fuel s c = .done [.command plain] log d := by
  obtain ⟨fuel, rfl⟩ := Nat.exists_eq_add_of_le' hfuel
  obtain ⟨tail, hrest⟩ := List.head?_eq_some_iff.mp hpeek
  -- a lowercase letter is neither trivia nor a line break
  have hblank : Scan.isBlank x = false := by
    simp only [Scan.isBlank, Bool.or_eq_false_iff, beq_eq_false_iff_ne]
    exact ⟨⟨Scan.ne_of_class hlower (by decide), Scan.ne_of_class hlower (by decide)⟩,
      Scan.ne_of_class hlower (by decide)⟩
  have hslash : x ≠ '\\' := Scan.ne_of_class hlower (by decide)
  have hline : x ≠ '\n' := Scan.ne_of_class hlower (by decide)
  have hskip : c.skipTrivia = c := Cursor.skipTrivia_of_cons hrest hblank hslash
  have hstatement : statement arguments s c = .done (.command plain) [] d := by
    rw [statement_run_lower hpeek hlower]
    exact bind_done hcommand
  obtain ⟨log, hfirst⟩ : ∃ log, anyStatement arguments s c = .done (.command plain) log d := by
    rw [anyStatement, bind_done here_run, bind_run, orElse, hstatement]
    exact ⟨_, rfl⟩
  rw [statements_run_cons (hskip.symm ▸ hpeek) hline, hskip, hfirst, Outcome.andThen_done,
    statements_run_end hend (Nat.succ_pos fuel)]
  exact ⟨_, rfl⟩

/-- A document of one command, which has a name and text after it. -/
theorem document_command {x y : Char} {tail : List Char} {plain : Command} {d : Cursor}
    (hrest : c.rest = x :: y :: tail) (hlower : x.isLower)
    (hcommand : command (arguments s.limit false) s c = .done plain [] d) (hend : d.rest = []) :
    ∃ log, document s c = .done ⟨[.command plain]⟩ log d := by
  have hfuel : 2 ≤ c.rest.length + 1 := by simp [hrest]
  obtain ⟨log, hrun⟩ :=
    statements_single (Cursor.peek_of_cons hrest) hlower hcommand hend hfuel
  rw [document_run, bind_run, hrun]
  exact ⟨_, rfl⟩

/-- A document of one command with the name `x`. -/
theorem document_single {tail : List Char} {plain : Command} {d : Cursor}
    (hrest : c.rest = 'x' :: ' ' :: tail)
    (hcommand : command (arguments s.limit false) s c = .done plain [] d) (hend : d.rest = []) :
    ∃ log, document s c = .done ⟨[.command plain]⟩ log d :=
  document_command hrest rfl hcommand hend

end Parser

/-- **Reading back what was written.** For a limit that lets a printable list or compound nest
as deep as it does, the text of a command name, a blank and the tree is read as one command,
whose only argument is the tree, up to places. -/
theorem parse_written {root : NbtValue} {options : ParseOptions}
    (hroot : root.argument?.isSome) (h : root.Printable) (hnest : root.nest ≤ options.maxDepth) :
    ∃ (found : NbtValue) (name : TextRun) (argument : Argument) (span : Span),
      Document.parse ("x " ++ String.ofList root.written) options =
        .ok (.ok ⟨[.command ⟨name, [argument], span⟩]⟩) ∧
      name.text = "x" ∧ found.argument? = some argument ∧ found.unplaced = root.unplaced := by
  generalize htext : "x " ++ String.ofList root.written = text
  have hrest : (Cursor.start text).rest = 'x' :: ' ' :: root.written := by
    simp [Cursor.start, ← htext]
  have hname : Scan.commandName (Cursor.start text).rest = some 1 := by
    rw [hrest]
    rfl
  have hblank : ((Cursor.start text).advance 1).rest = ' ' :: root.written :=
    Cursor.advance_one_of_cons hrest
  obtain ⟨found, argument, harguments, hfound, hsame⟩ :=
    Parser.arguments_parse (s := ⟨options.maxDepth, .strict⟩) hroot h hnest false hblank
  obtain ⟨span, hcommand⟩ := Parser.command_single hname harguments
  have hend : ((((Cursor.start text).advance 1).advance 1).advance root.written.length).rest =
      [] := by
    rw [Cursor.advance_rest, Cursor.advance_one_of_cons hblank, List.drop_length]
  obtain ⟨log, hrun⟩ := Parser.document_single hrest hcommand hend
  refine ⟨found, _, argument, span, by rw [Document.parse, Document.run, hrun], ?_, hfound, hsame⟩
  rw [Cursor.textRun, Cursor.textBetween, hrest]
  rfl

/-- `[k={"\"":[true,-1.5e1b,mc:a/b]}]` -/
def nestedSample : NbtValue :=
  .list ⟨.pairs [⟨.plain ⟨"k", .bare, .nowhere⟩, .equals, .compound ⟨[
    ⟨.plain ⟨"\\\"", .double, .nowhere⟩, .colon, .list ⟨.values [
      .boolean ⟨true, .nowhere⟩,
      .number ⟨⟨0xC02E000000000000⟩, some 'b', "-1.5e1b", .nowhere⟩,
      .resource ⟨"mc", "a/b", .nowhere⟩], .nowhere⟩, .nowhere⟩], .nowhere⟩, .nowhere⟩], .nowhere⟩

theorem nestedSample_printable : nestedSample.Printable := by
  have hnumber : Number.Printable ⟨⟨0xC02E000000000000⟩, some 'b', "-1.5e1b", .nowhere⟩ := by
    have hmantissa := @Mantissa.decimal ['1'] ['5'] (by decide) (by decide)
    have hexponent : Exponent ['e', '1'] := .present (.inl rfl) (.inl rfl) (by decide)
    exact ⟨_, .negative hmantissa hexponent, by rintro letter ⟨⟩; rfl, rfl, by decide +kernel⟩
  have hlocation : ResourceLocation.Printable ⟨"mc", "a/b", .nowhere⟩ :=
    ⟨by decide, @ResourcePath.more ['a'] ['b'] (by decide) (.last (by decide))⟩
  have hkey : StringLiteral.Quoted ⟨"\\\"", .double, .nowhere⟩ :=
    ⟨'"', rfl, .escape (by decide) .nil⟩
  refine .list (.pairs (List.cons_ne_nil _ _) (List.forall_mem_singleton.mpr ?_))
  refine .mk (.bare (by decide)) (.compound (.mk (List.cons_ne_nil _ _) ?_))
  refine List.forall_mem_singleton.mpr (.mk (.quoted hkey) (.list (.values ?_ ?_)))
  · rintro location ⟨⟩
  · simp only [List.forall_mem_cons]
    exact ⟨.boolean, .number hnumber, .resource hlocation, List.forall_mem_nil _⟩

/-- A nested tree is read back with three levels. -/
theorem parse_written_nested : nestedSample.argument?.isSome ∧ nestedSample.Printable ∧
    nestedSample.nest ≤ 3 ∧
    ∃ (found : NbtValue) (name : TextRun) (argument : Argument) (span : Span),
      Document.parse "x [k=\x7b\"\\\"\":[true,-1.5e1b,mc:a/b]\x7d]" ⟨3⟩ =
        .ok (.ok ⟨[.command ⟨name, [argument], span⟩]⟩) ∧
      name.text = "x" ∧ found.argument? = some argument ∧
      found.unplaced = nestedSample.unplaced := by
  have hnest : nestedSample.nest ≤ 3 := by decide
  have hwritten : "x " ++ String.ofList nestedSample.written =
      "x [k=\x7b\"\\\"\":[true,-1.5e1b,mc:a/b]\x7d]" := by
    decide
  refine ⟨rfl, nestedSample_printable, hnest, ?_⟩
  rw [← hwritten]
  exact parse_written rfl nestedSample_printable hnest

end Mcfunction
