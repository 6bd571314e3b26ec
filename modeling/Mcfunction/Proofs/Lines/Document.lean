import Mcfunction.Proofs.Lines.Command
import Mcfunction.Proofs.Parser.Document

/-!
# Statements in Longer Texts

A statement is read alone as it is read in a longer text, and at the end of a text the parse of
the longer one goes on with what follows.

## Main results

* `anyStatement_copies`: a statement, or the placeholder of a line that is none.
* `statements_run_append`: the statements of the longer text are those of the text and those
  that follow.
-/

namespace Mcfunction

variable {e : Embedding} {s : Settings} {c d : Cursor}

/-! ### Comments -/

/-- What kind of comment it is does not depend on its place. -/
theorem Parser.commentOf_shift (tag : String) (mark : Option Char) (body : List Char)
    (span : Span) (bytes : Nat) :
    commentOf tag mark body (shift bytes span) = shift bytes (commentOf tag mark body span) := by
  unfold commentOf
  split <;> rfl

/-- The comment is the same, and so is the place where it ends. -/
theorem Embedding.place_comment (hc : e.start ≤ c) :
    (e.place c).comment = shift e.bytes c.comment ∧
      ((e.place c).advance (Scan.commentTag (e.place c).rest).1).advance
          (Scan.commentText ((e.place c).rest.drop (Scan.commentTag (e.place c).rest).1)) =
        e.place ((c.advance (Scan.commentTag c.rest).1).advance
          (Scan.commentText (c.rest.drop (Scan.commentTag c.rest).1))) := by
  have hends := ends_of_le hc
  have htag : Scan.commentTag (e.place c).rest = Scan.commentTag c.rest :=
    Scan.commentTag_append hends
  have hlen := (Scan.inline_commentTag c.rest).le_length
  rw [Cursor.comment, Cursor.comment, htag]
  generalize Scan.commentTag c.rest = scanned at hlen ⊢
  obtain ⟨tag, mark⟩ := scanned
  have hbody : (e.place c).advance tag = e.place (c.advance tag) := place_advance hlen
  have hdrop : (e.place c).rest.drop tag = c.rest.drop tag ++ e.tail := Scan.drop_append hlen
  have hrest : (e.place (c.advance tag)).rest = c.rest.drop tag ++ e.tail := by
    rw [← hbody, Cursor.advance_rest, hdrop]
  have htext : Scan.commentText (c.rest.drop tag ++ e.tail) =
      Scan.commentText (c.rest.drop tag) := Scan.commentText_append (hends.drop tag)
  have hcount : Scan.commentText (c.rest.drop tag) ≤ (c.rest.drop tag).length :=
    (Scan.commentText_le_statement _).trans (Scan.statement_le_length _)
  have hend := place_advance (e := e) (c := c.advance tag)
    (n := Scan.commentText (c.rest.drop tag)) (by rwa [Cursor.advance_rest])
  simp only [hbody, hdrop, hrest, htext, Scan.take_append hcount, hend,
    place_textBetween hlen, Cursor.advance_rest, and_true]
  exact Parser.commentOf_shift _ _ _ (c.spanTo _) _

namespace Parser

/-- Comments are copied. -/
theorem comment_copies (hc : e.start ≤ c) : Copies e s c comment comment := by
  have htag := (Scan.inline_commentTag c.rest).le_length
  have htext : Scan.commentText (c.rest.drop (Scan.commentTag c.rest).1) ≤
      (c.advance (Scan.commentTag c.rest).1).rest.length := by
    rw [Cursor.advance_rest]
    exact (Scan.commentText_le_statement _).trans (Scan.statement_le_length _)
  obtain ⟨hcomment, hend⟩ := Embedding.place_comment hc
  refine .of_run comment_run ?_
    ((hc.trans (Cursor.le_advance htag)).trans (Cursor.le_advance htext))
  rw [comment_run, hcomment, hend]

/-! ### Statements -/

/-- The recovery of a statement is copied, up to the end of its line. -/
theorem recoverStatement_copies {error : ParseError} (hc : e.start ≤ c) :
    Copies e s c (recoverStatement error) (recoverStatement (shift e.bytes error)) := by
  have hends := Embedding.ends_of_le hc
  have hlen := Scan.statement_le_length c.rest
  have hscan : Scan.statement (e.place c).rest = Scan.statement c.rest :=
    Scan.statement_append hends
  have htrimmed : Scan.trimmedStatement (e.place c).rest = Scan.trimmedStatement c.rest :=
    Scan.trimmedStatement_append hends
  have htrimmedLen := (Scan.trimmedStatement_le_statement c.rest).trans hlen
  rw [recoverStatement, recoverStatement, copies_here_bind, hscan, htrimmed]
  refine .log_bind ?_ ?_
  · rw [Embedding.place_offsetAfter hlen]
    rfl
  · rw [copies_take_bind hlen]
    refine (Copies.span rfl (Embedding.place_offsetAfter htrimmedLen)
      (hc.trans (Cursor.le_advance hlen))).bind fun trimmed d hd => ?_
    exact .pure (Statement.error ⟨error.message, trimmed⟩) hd

section Statements

variable {arguments arguments' : Bool → Parser (List Argument)}
  (harguments : ∀ inMacro c, e.start ≤ c →
    Copies e s c (arguments inMacro) (arguments' inMacro))

include harguments

/-- Macro statements are copied if their arguments are. -/
theorem macroStatement_copies (hdollar : c.peek = some '$') (hc : e.start ≤ c) :
    Copies e s c (macroStatement (arguments true)) (macroStatement (arguments' true)) := by
  rw [macroStatement, macroStatement, copies_here_bind]
  refine (macroCommand_copies harguments true hdollar hc).bind fun command d hd => ?_
  have hspan : (shift e.bytes command).span = shift e.bytes command.span :=
    command.span_shift e.bytes
  rw [hspan]
  refine .slice_bind rfl rfl fun chars => ?_
  split
  · exact .log_bind rfl (.pure (Statement.macroCommand command) hd)
  · exact .pure (Statement.macroCommand command) hd

/-- Statements are copied if their arguments are. -/
theorem statement_copies (hne : c.rest ≠ []) (hc : e.start ≤ c) :
    Copies e s c (statement arguments) (statement arguments') := by
  rw [statement, statement, copies_here_bind, Embedding.place_peek hne]
  split
  · exact (comment_copies hc).bind fun comment d hd => .pure (Statement.comment comment) hd
  · rename_i hdollar
    exact macroStatement_copies harguments hdollar hc
  · split
    · exact (command_copies harguments false hc).bind fun command d hd =>
        .pure (Statement.command command) hd
    · exact .failAt rfl (Embedding.place_charEnd hne)
  · exact .failAt rfl rfl

/-- Statements and comments are copied if arguments are. -/
theorem anyStatement_copies (hne : c.rest ≠ []) (hc : e.start ≤ c) :
    Copies e s c (anyStatement arguments) (anyStatement arguments') := by
  rw [anyStatement, anyStatement, copies_here_bind]
  refine Copies.bind (Copies.orElse (statement_copies harguments hne hc) fun error => ?_)
    fun statement d hd => ?_
  · rw [copies_settings_bind]
    split
    · exact .fail error
    · exact recoverStatement_copies hc
  · have hkind : (shift e.bytes statement).kind = statement.kind := by cases statement <;> rfl
    rw [Statement.span_shift, hkind]
    exact .log_bind rfl (.pure statement hd)

end Statements

/-! ### All statements -/

variable {arguments arguments' : Bool → Parser (List Argument)} {fuel : Nat}

/-- The statements of the longer text are those of the text and those from its end on. With
each turn of the loop over the text goes one of the loop over the longer one, but for the last:
there the loop over the longer text goes on. -/
theorem statements_run_append {m : Nat} {found more : List Statement} {log later : List Event}
    {next last : Cursor}
    (harguments : ∀ inMacro c, e.start ≤ c →
      Copies e s c (arguments inMacro) (arguments' inMacro))
    (hm : 0 < m)
    (hfinish : ∀ {fuel}, m ≤ fuel →
      statements arguments' fuel s (e.place e.finish) = .done more later last)
    (hc : e.start ≤ c) (h : statements arguments fuel s c = .done found log next) {fuel' : Nat}
    (hfuel : fuel + m ≤ fuel' + 1) :
    statements arguments' fuel' s (e.place c) =
      .done (shift e.bytes found ++ more) (shift e.bytes log ++ later) last := by
  induction fuel generalizing c found log fuel' with
  | zero => cases h
  | succ fuel ih =>
      obtain ⟨fuel', rfl⟩ : ∃ k, fuel' = k + 1 := ⟨fuel' - 1, by omega⟩
      have hstart := hc.trans c.le_skipTrivia
      rcases hpeek : c.skipTrivia.peek with _ | x
      · rw [statements_run_nil hpeek] at h
        cases h
        have hend := Embedding.eq_finish hstart (List.head?_eq_none_iff.mp hpeek)
        rw [← statements_run_skipTrivia, Embedding.place_skipTrivia hc, hend]
        exact hfinish (by omega)
      · obtain ⟨rest, hrest⟩ := List.head?_eq_some_iff.mp hpeek
        have hne : c.skipTrivia.rest ≠ [] := by simp [hrest]
        have hpeek' : (e.place c).skipTrivia.peek = some x := by
          rw [Embedding.place_skipTrivia hc, Embedding.place_peek hne, hpeek]
        by_cases hx : x = '\n'
        · subst hx
          have hone : 1 ≤ c.skipTrivia.rest.length := by simp [hrest]
          rw [statements_run_newline hpeek] at h
          rw [statements_run_newline hpeek', Embedding.place_skipTrivia hc,
            Embedding.place_advance hone]
          exact ih (hstart.trans (Cursor.le_advance hone)) h (by omega)
        · obtain ⟨first, earlier, d, others, after, hfirst, hothers, rfl, rfl⟩ :=
            statements_eq_done_cons hpeek hx h
          obtain ⟨hd, hfirst'⟩ := (anyStatement_copies harguments hne hstart).run_done hfirst
          rw [statements_run_cons hpeek' hx, Embedding.place_skipTrivia hc, hfirst',
            Outcome.andThen_done, ih hd hothers (by omega)]
          simp

end Parser

end Mcfunction
