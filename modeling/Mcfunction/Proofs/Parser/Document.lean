import Mcfunction.Proofs.Parser.Command

/-!
# What the Parsers of Statements Read

A tolerant parse puts a placeholder in the place of a line that is no statement, so it reads
every text up to its end. Each turn of the loop over the lines takes a line break or a
statement.

## Main results

* `document_reads`: a document, in both modes and with any limit on nesting.
-/

namespace Mcfunction

variable {limit : Nat} {s : Settings} {c d : Cursor}

/-! ### Comments -/

/-- The comment keeps its tag and says where it stands. -/
theorem Cursor.comment_tag (c : Cursor) :
    c.comment.tag = c.textBetween 0 (Scan.commentTag c.rest).1 ∧
      c.comment.span = c.spanTo ((c.advance (Scan.commentTag c.rest).1).advance
        (Scan.commentText (c.rest.drop (Scan.commentTag c.rest).1))) := by
  rw [Cursor.comment]
  rcases Scan.commentTag c.rest with ⟨tag, mark⟩
  simp only [Cursor.advance_rest]
  unfold Parser.commentOf
  split <;> exact ⟨rfl, rfl⟩

namespace Parser

/-- A comment is read with its tag and its text. -/
theorem comment_run : comment s c = .done c.comment []
    ((c.advance (Scan.commentTag c.rest).1).advance
      (Scan.commentText (c.rest.drop (Scan.commentTag c.rest).1))) := by
  have htag := (Scan.inline_commentTag c.rest).le_length
  generalize hscan : Scan.commentTag c.rest = scanned at htag ⊢
  obtain ⟨tag, mark⟩ := scanned
  have hlen := (Scan.commentText_le_statement (c.advance tag).rest).trans
    (Scan.statement_le_length _)
  have hle : c ≤ c.advance tag := Cursor.le_advance htag
  rw [comment, bind_done here_run]
  simp only [hscan]
  rw [bind_done (textRun_run htag), bind_done here_run, bind_done (take_run hlen),
    bind_done here_run,
    bind_done (slice_run (c.advance tag).offset_eq_advance_zero (Nat.zero_le _) hlen),
    bind_done (spanFrom_run (hle.trans (Cursor.le_advance hlen)))]
  simp only [Cursor.comment, hscan, pure_run, Cursor.advance_rest, List.drop_zero, Nat.sub_zero]
  rfl

/-- The tag of a comment is not empty. -/
theorem peek_comment (hpeek : c.peek = some '#') : 0 < (Scan.commentTag c.rest).1 := by
  obtain ⟨tail, hrest⟩ := List.head?_eq_some_iff.mp hpeek
  have hrun : 0 < Scan.run (· == '#') c.rest := by
    rw [hrest, Scan.run_cons, if_pos (beq_self_eq_true _)]
    exact Nat.succ_pos _
  rw [Scan.commentTag]
  split
  · exact hrun
  · split
    · omega
    · exact hrun

end Parser

/-! ### Statements -/

/-- A statement takes at least one character. -/
theorem StatementAt.forward {arguments : Bool → Cursor → List Argument → Cursor → Prop}
    {statement : Statement} (harguments : ∀ inMacro, ArgumentsPlaced (arguments inMacro))
    (hline : Scan.atLineEnd c.rest = false) (h : StatementAt arguments c statement d) :
    c < d ∧ Within c d := by
  cases h with
  | comment hpeek =>
      have hpos := Parser.peek_comment hpeek
      have hline := Scan.inline_commentTag c.rest
      have htext := Scan.commentText_le_statement (c.rest.drop (Scan.commentTag c.rest).1)
      have hbody : Within (c.advance (Scan.commentTag c.rest).1)
          ((c.advance (Scan.commentTag c.rest).1).advance
            (Scan.commentText (c.rest.drop (Scan.commentTag c.rest).1))) :=
        .advance (by rwa [Cursor.advance_rest])
      exact ⟨(Cursor.lt_advance hpos hline.le_length).trans_le hbody.le,
        (Within.inline hline).trans hbody⟩
  | command h => exact (h.placed (harguments false)).forward
  | macroCommand h => exact (h.placed (harguments true)).forward
  | error =>
      have hnext := Within.next hline
      have hlen := List.length_pos_iff.mpr (Parser.ne_nil_of_not_atLineEnd hline)
      exact ⟨(Cursor.lt_advance Nat.one_pos hlen).trans_le hnext.le_end,
        c.le_statementEnd, le_rfl⟩

namespace Parser

/-- What is done with a line that is no statement. -/
theorem recoverStatement_run (error : ParseError) :
    recoverStatement error s c =
      .done (.error ⟨error.message, c.spanTo (c.advance (Scan.trimmedStatement c.rest))⟩)
        [.skippedStatement error ⟨c.offset, c.offsetAfter (Scan.statement c.rest)⟩]
        c.statementEnd := by
  have hlen := Scan.statement_le_length c.rest
  have htrimmed := (Scan.trimmedStatement_le_statement c.rest).trans hlen
  have hspan : c.offset ≤ c.offsetAfter (Scan.trimmedStatement c.rest) :=
    Cursor.offset_le_of_le (Cursor.le_advance htrimmed)
  rw [recoverStatement, bind_done here_run, bind_run, log_run, Outcome.andThen_done,
    bind_done (take_run hlen), bind_done (span_run hspan)]
  rfl

/-! ### One turn of the loop -/

section Turns

variable {arguments : Bool → Parser (List Argument)} {fuel : Nat}

/-- At the end of the text there is no statement. -/
theorem statements_run_nil (hpeek : c.skipTrivia.peek = none) :
    statements arguments (fuel + 1) s c = .done [] [] c.skipTrivia := by
  rw [statements, bind_done skipTrivia_run, bind_done here_run, hpeek]
  rfl

/-- An empty line holds no statement. -/
theorem statements_run_newline (hpeek : c.skipTrivia.peek = some '\n') :
    statements arguments (fuel + 1) s c =
      statements arguments fuel s (c.skipTrivia.advance 1) := by
  have hone : 1 ≤ c.skipTrivia.rest.length := Cursor.length_pos_of_peek hpeek
  rw [statements, bind_done skipTrivia_run, bind_done here_run, hpeek]
  exact bind_done (take_run hone)

/-- Anything else is a statement, with more statements behind it. -/
theorem statements_run_cons {x : Char} (hpeek : c.skipTrivia.peek = some x) (hx : x ≠ '\n') :
    statements arguments (fuel + 1) s c =
      (anyStatement arguments s c.skipTrivia).andThen fun first d =>
        (statements arguments fuel s d).andThen fun more d => .done (first :: more) [] d := by
  rw [statements, bind_done skipTrivia_run, bind_done here_run, hpeek]
  simp only
  rfl

/-- A statement and others behind it make a run. -/
theorem exists_statements_cons {x : Char} {first : Statement} {others : List Statement}
    {d next : Cursor} {earlier later : List Event} (hpeek : c.skipTrivia.peek = some x)
    (hx : x ≠ '\n') (hfirst : anyStatement arguments s c.skipTrivia = .done first earlier d)
    (hothers : statements arguments fuel s d = .done others later next) :
    ∃ log, statements arguments (fuel + 1) s c = .done (first :: others) log next := by
  rw [statements_run_cons hpeek hx, hfirst, Outcome.andThen_done, hothers]
  exact ⟨_, rfl⟩

/-- Where a statement starts, a run reads it and then the others. -/
theorem statements_eq_done_cons {x : Char} {found : List Statement} {log : List Event}
    {next : Cursor} (hpeek : c.skipTrivia.peek = some x) (hx : x ≠ '\n')
    (h : statements arguments (fuel + 1) s c = .done found log next) :
    ∃ first earlier d others later,
      anyStatement arguments s c.skipTrivia = .done first earlier d ∧
        statements arguments fuel s d = .done others later next ∧
        found = first :: others ∧ log = earlier ++ later := by
  rw [statements_run_cons hpeek hx] at h
  obtain ⟨first, earlier, d, rest, hfirst, hrest, rfl⟩ := Outcome.andThen_eq_done h
  obtain ⟨others, later, last, _, hothers, hend, rfl⟩ := Outcome.andThen_eq_done hrest
  obtain ⟨rfl, rfl, rfl⟩ := Outcome.done.inj hend
  exact ⟨first, earlier, d, others, later, hfirst, hothers, rfl, by rw [List.append_nil]⟩

/-- Where nothing is left, there are no statements. -/
theorem statements_run_end (hrest : c.rest = []) (hfuel : 0 < fuel) :
    statements arguments fuel s c = .done [] [] c := by
  obtain ⟨fuel, rfl⟩ : ∃ k, fuel = k + 1 := ⟨fuel - 1, by omega⟩
  have hskip : c.skipTrivia = c := Cursor.skipTrivia_of_atLineEnd (by rw [hrest]; rfl)
  rw [statements_run_nil (by rw [hskip, Cursor.peek, hrest]; rfl), hskip]

/-- A small letter starts a command. -/
theorem statement_run_lower {x : Char} (hpeek : c.peek = some x) (hlower : x.isLower) :
    statement arguments s c =
      (command (arguments false) >>= fun command => Pure.pure (Statement.command command)) s c := by
  -- the characters that start other statements are no lowercase letters
  have hhash : x ≠ '#' := by
    rintro rfl
    cases hlower
  have hdollar : x ≠ '$' := by
    rintro rfl
    cases hlower
  rw [statement, bind_done here_run, hpeek]
  simp only [hlower, if_true]

/-- Trivia before a text change nothing. -/
theorem statements_run_skipTrivia :
    statements arguments fuel s c.skipTrivia = statements arguments fuel s c := by
  cases fuel with
  | zero => rfl
  | succ fuel =>
      rw [statements, bind_done skipTrivia_run, bind_done skipTrivia_run,
        Cursor.skipTrivia_skipTrivia]

end Turns

/-! ### Both modes -/

variable {arguments : Bool → Parser (List Argument)}
  {argumentsAt : Bool → Cursor → List Argument → Cursor → Prop}
  (hplaced : ∀ inMacro, ArgumentsPlaced (argumentsAt inMacro))
  (harguments : ∀ inMacro c, Reads limit c c (arguments inMacro) (argumentsAt inMacro c))

include hplaced harguments

/-- The warning about a macro line without interpolation is no error. -/
theorem macroStatement_reads (hdollar : c.peek = some '$') :
    Reads limit c c (macroStatement (arguments true)) (StatementAt argumentsAt c) := by
  rw [macroStatement, reads_here_bind]
  refine (macroCommand_reads hplaced harguments true hdollar).bind fun command d h => ?_
  have hcommand := h.placed (hplaced true)
  obtain ⟨n, hn, rfl⟩ := Cursor.le_iff_exists_advance.mp hcommand.le
  have hslice : ∀ s, slice c command.span.start command.span.stop s (c.advance n) =
      .done (c.rest.take n) [] (c.advance n) := by
    intro s
    rw [hcommand.span_eq]
    exact slice_run c.offset_eq_advance_zero (Nat.zero_le _) hn
  rw [reads_bind_iff fun _ => hslice _]
  split
  · exact reads_log_bind rfl (.pure (.macroCommand h))
  · exact .pure (.macroCommand h)

/-- A statement is read in lockstep if its arguments are. -/
theorem statement_reads (c : Cursor) :
    Reads limit c c (statement arguments) (StatementAt argumentsAt c) := by
  rw [statement, reads_here_bind]
  split
  · rename_i hpeek
    refine (reads_bind_iff fun _ => comment_run).mpr ?_
    exact .pure (.comment hpeek)
  · rename_i hpeek
    exact macroStatement_reads hplaced harguments hpeek
  · rename_i x hpeek
    split
    · exact (command_reads hplaced harguments false c).bind fun _ _ h => .pure (.command h)
    · obtain ⟨d, hcd, hend⟩ := c.exists_charEnd
      exact .failAt le_rfl hcd rfl hend
  · exact .failAt le_rfl le_rfl rfl rfl

/-- So is a statement that is skipped if it cannot be read. -/
theorem anyStatement_reads (c : Cursor) :
    Reads limit c c (anyStatement arguments) (StatementAt argumentsAt c) := by
  rw [anyStatement, reads_here_bind]
  refine (orElse_reads (fun error => rfl) (fun error herror => ?_)
    (statement_reads hplaced harguments c)).bind fun statement d h =>
      reads_log_bind rfl (.pure h)
  refine ⟨.error ⟨error.message, c.spanTo (c.advance (Scan.trimmedStatement c.rest))⟩,
    [.skippedStatement error ⟨c.offset, c.offsetAfter (Scan.statement c.rest)⟩], c.statementEnd,
    ?_, rfl, .error rfl⟩
  rw [bind_done settings_run]
  exact recoverStatement_run error

/-- The statements up to the end of the text; each turn of the loop takes a character. -/
theorem statements_reads {fuel : Nat} {origin : Cursor} (horigin : origin ≤ c)
    (hfuel : c.rest.length < fuel) :
    Reads limit origin c (statements arguments fuel)
      (fun statements _ => StatementsAt argumentsAt c statements) := by
  induction fuel generalizing c with
  | zero => exact absurd hfuel (Nat.not_lt_zero _)
  | succ fuel ih =>
      have hstart := c.le_skipTrivia
      have hnext : ∀ {d}, c.skipTrivia < d →
          Reads limit origin d (statements arguments fuel)
            (fun statements _ => StatementsAt argumentsAt d statements) := by
        intro d hlt
        have := Cursor.length_lt_of_lt (hstart.trans_lt hlt)
        exact ih ((horigin.trans hstart).trans hlt.le) (by omega)
      rw [statements, reads_skipTrivia_bind, reads_here_bind]
      split
      · rename_i hpeek
        exact .pure (.nil hpeek)
      · rename_i hpeek
        have hlen : 1 ≤ c.skipTrivia.rest.length := Cursor.length_pos_of_peek hpeek
        rw [reads_take_bind hlen]
        exact (hnext (Cursor.lt_advance Nat.one_pos hlen)).mono le_rfl fun _ _ h =>
          .newline hpeek h
      · rename_i x hne hpeek
        obtain ⟨tail, hrest⟩ := List.head?_eq_some_iff.mp hpeek
        have hline : Scan.atLineEnd c.skipTrivia.rest = false := by
          rw [hrest]
          simpa [Scan.atLineEnd] using hne
        refine ((anyStatement_reads hplaced harguments _).weaken (horigin.trans hstart)).bind
          fun first d hfirst => ?_
        exact (hnext (hfirst.forward hplaced hline).1).bind fun _ _ h =>
          .pure (.cons hline hfirst h)

omit hplaced harguments

/-- A document is all the statements of the text. -/
theorem document_run : document s c =
    (statements (Parser.arguments s.limit) (c.rest.length + 1) >>= fun statements =>
      Pure.pure (⟨statements⟩ : Document)) s c := by
  rw [document, bind_done settings_run, bind_done here_run]

/-- A document, in both modes. -/
theorem document_reads (c : Cursor) :
    Reads limit c c document
      (fun document _ => StatementsAt (ArgumentsAt limit) c document.statements) := by
  rw [Reads, document_run, document_run]
  exact (statements_reads (ArgumentsAt.argumentsPlaced limit) (arguments_reads limit)
    (le_refl c) (Nat.lt_succ_self _)).bind fun statements _ h => .pure h

end Parser

/-- A text is valid if its strict run succeeds. -/
theorem Document.parse_eq_ok_iff {text : String} {options : ParseOptions} {document : Document} :
    parse text options = .ok (.ok document) ↔
      ∃ log next, run .strict options text = .done document log next := by
  rw [parse]
  cases run .strict options text <;> simp

end Mcfunction
