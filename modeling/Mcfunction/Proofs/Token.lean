import Mcfunction.Proofs.Placeholders
import Mcfunction.Proofs.Token.Reading

/-!
# The Flat Reading Agrees with the Parser

A flat reading of a text knows no grammar. It tells comments and macro lines apart from other text
by a flag of its own, and tries its tokens in a fixed order. Nevertheless every text that the
strict parser accepts is read to its end, and the comments, strings and interpolations among its
tokens are those of the document, in order and with the same spans.

A walk along the document takes care of the inside of a statement. What is left are the places
between statements, where the flag changes.

## Main results

* `StatementsAt.exists_row`: the tokens of the statements of a text have their marks.
* `Document.exists_tokens`: the marks among the tokens of a text are those of its document.
* `Token.ofText_agrees`: each comment, quoted string and interpolation is exactly one token.
-/

namespace Mcfunction

/-! ### Comments -/

namespace Scan

variable {front back : List Char} {x : Char}

/-- Text without line breaks and backslashes belongs to the statement that goes on behind it. -/
theorem statement_front (h : ∀ c ∈ front, c ≠ '\n' ∧ c ≠ '\\') :
    statement (front ++ back) = front.length + statement back := by
  induction front with
  | nil => simp
  | cons c front ih =>
      obtain ⟨⟨hline, hslash⟩, hfront⟩ := List.forall_mem_cons.mp h
      have hcontinuation : continuation (c :: (front ++ back)) = none := by
        unfold continuation
        split
        · rename_i heq
          exact absurd (List.cons.inj heq).1 hslash
        · rfl
      rw [List.cons_append, statement_cons hline hcontinuation, ih hfront, List.length_cons]
      omega

/-- The text of a comment is the text behind its tag and the tag. -/
theorem commentText_front (h : ∀ c ∈ front, c ≠ '\n' ∧ c ≠ '\\' ∧ c ≠ '\r')
    (back : List Char) :
    commentText (front ++ back) = front.length + commentText back := by
  have hstatement : statement (front ++ back) = front.length + statement back :=
    statement_front fun c hc => ⟨(h c hc).1, (h c hc).2.1⟩
  have htake : (front ++ back).take (front.length + statement back) =
      front ++ back.take (statement back) := by
    rw [List.take_append, List.take_of_length_le (Nat.le_add_right _ _), Nat.add_sub_cancel_left]
  unfold commentText
  simp only
  rw [hstatement, htake, List.getLast?_append]
  rcases hlast : (back.take (statement back)).getLast? with _ | y
  · have hreturn : front.getLast? ≠ some '\r' := by
      intro hreturn
      exact (h _ (List.mem_of_getLast? hreturn)).2.2 rfl
    simp [hreturn]
  · have hpos : 0 < statement back := by
      rcases Nat.eq_zero_or_pos (statement back) with hzero | hpos
      · rw [hzero, List.take_zero] at hlast
        cases hlast
      · exact hpos
    by_cases hy : y = '\r'
    · simp only [hy, Option.some_or, beq_self_eq_true, if_true]
      omega
    · simp [hy]

/-- The tag of a comment and the text behind it are the comment as a flat reading sees it. -/
theorem commentText_eq (chars : List Char) :
    commentText chars =
      (commentTag chars).1 + commentText (chars.drop (commentTag chars).1) := by
  have htag := taken_commentTag chars
  have hplain : ∀ c ∈ chars.take (commentTag chars).1, c ≠ '\n' ∧ c ≠ '\\' ∧ c ≠ '\r' := by
    intro c hc
    have hchar := htag.forall_mem c hc
    simp only [isTagChar, Bool.or_eq_true, beq_iff_eq] at hchar
    rcases hchar with ((rfl | rfl) | rfl) | rfl <;> decide
  have hfront := commentText_front hplain (chars.drop (commentTag chars).1)
  rwa [List.take_append_drop, List.length_take_of_le htag.le_length] at hfront

end Scan

/-! ### Statements -/

theorem MacroCommandAt.peek {arguments : Cursor → List Argument → Cursor → Prop} {c d : Cursor}
    {command : MacroCommand} (h : MacroCommandAt arguments c command d) : c.peek = some '$' := by
  cases h
  assumption

variable {text : String} {c d : Cursor} {marks : List Mark}

/-- Where a line or the text ends, every walk stops. -/
theorem Walk.Stops.of_atLineEnd (lineStart : Bool) (h : Scan.atLineEnd c.rest) :
    Walk.Stops lineStart c := by
  intro y hy
  obtain ⟨tail, hrest⟩ := List.head?_eq_some_iff.mp hy
  rw [hrest] at h
  obtain rfl : y = '\n' := by simpa [Scan.atLineEnd] using h
  exact ⟨rfl, fun _ => rfl⟩

/-- Trivia where a line starts. -/
theorem exists_row_skipTrivia (c : Cursor) :
    ∃ tokens, Token.Row true c tokens true c.skipTrivia ∧ tokens.filterMap Token.mark? = [] := by
  refine Walk.exists_row (fun y hy => ⟨?_, Bool.noConfusion⟩) (.skipTrivia true c)
  obtain ⟨tail, hrest⟩ := List.head?_eq_some_iff.mp hy
  have hstop := Scan.step_drop_repeated Scan.triviaStep_le_length c.rest
  have hdrop : c.rest.drop (Scan.trivia c.rest) = y :: tail := by
    rw [← hrest, Cursor.skipTrivia, Cursor.advance_rest]
  rw [← Scan.trivia, hdrop] at hstop
  rw [Bool.eq_false_iff]
  intro hblank
  simp [Scan.triviaStep, hblank] at hstop

namespace Token

variable {x : Char} {tail : List Char} {tokens : List Token}

/-- A lowercase letter starts the same token wherever it stands. -/
theorem scan_lower (lineStart : Bool) (hx : x.isLower) :
    scan lineStart x tail = .ok (longest x (x :: tail)) := by
  have hne : ∀ y : Char, y.isLower = false → x ≠ y := by
    rintro y hy rfl
    rw [hy] at hx
    cases hx
  have hblank : Scan.isBlank x = false := by
    simp [Scan.isBlank, hne ' ' rfl, hne '\t' rfl, hne '\r' rfl]
  have hspecial : Scan.isSpecial x = false := by
    simp [Scan.isSpecial, hne '\n' rfl, hne '"' rfl, hne '\'' rfl, hne '$' rfl, hne '\\' rfl]
  have hord : Scan.startsOrdinary (x :: tail) := Scan.startsOrdinary_of_isSpecial hspecial
  obtain ⟨hline, hquoted, hinterpolation, hcontinuation⟩ := Scan.startsOrdinary_cons.mp hord
  have hplayer : Scan.fakePlayer (x :: tail) = none := by
    unfold Scan.fakePlayer
    split
    · rename_i heq
      exact absurd (List.cons.inj heq).1 (hne '#' rfl)
    · rfl
  simp [scan, hline, hblank, hquoted, hinterpolation, hcontinuation, hplayer, hne '#' rfl,
    hne '$' rfl, hne '@' rfl, hne '~' rfl, hne '^' rfl]

/-- Where a line starts, a `$` that starts no interpolation is a token. -/
theorem scan_dollar (h : Scan.startsOrdinary ('$' :: tail)) :
    scan true '$' tail = .ok (.macroSigil, 1) := by
  obtain ⟨-, -, hinterpolation, -⟩ := Scan.startsOrdinary_cons.mp h
  simp [scan, Scan.isBlank, hinterpolation]

/-- The tokens of a plain command are the same at the start of a line as elsewhere. -/
theorem Row.lineStart (hpeek : c.peek = some x) (hx : x.isLower) (hlt : c < d)
    (h : Row false c tokens false d) : Row true c tokens false d := by
  cases h with
  | nil => exact absurd hlt (lt_irrefl c)
  | cons hrest hscan hpos hlen h =>
      obtain rfl := Option.some.inj (hpeek.symm.trans (Cursor.peek_of_cons hrest))
      have hlongest := Except.ok.inj ((scan_lower false hx).symm.trans hscan)
      have hscan : scan true x _ = .ok _ := (scan_lower true hx).trans (congrArg _ hlongest)
      refine .cons hrest hscan hpos hlen ?_
      rw [(longest_kind hlongest).1] at h ⊢
      exact h

end Token

/-- The tokens of the statement between two places, up to the end of its line. -/
theorem StatementAt.exists_row {arguments : Bool → Cursor → List Argument → Cursor → Prop}
    {statement : Statement} (hplaced : ∀ inMacro, ArgumentsPlaced (arguments inMacro))
    (hmarked : ∀ inMacro, ArgumentsMarked (arguments inMacro))
    (hline : Scan.atLineEnd c.rest = false) (h : StatementAt arguments c statement d)
    (hnone : placeholders statement.nodes = []) :
    ∃ tokens, Token.Row true c tokens false d.skipTrivia ∧
      tokens.filterMap Token.mark? = statement.nodes.flatMap Node.marks := by
  have hstops : Walk.Stops false d.skipTrivia := by
    obtain ⟨-, -, -, hend, -⟩ := h.exists_stop hplaced hline
    exact .of_atLineEnd false hend
  have hlt := (h.forward hplaced hline).1
  cases h with
  | comment hpeek =>
      obtain ⟨tail, hrest⟩ := List.head?_eq_some_iff.mp hpeek
      have hcount := Scan.commentText_eq c.rest
      have hpos := Parser.peek_comment hpeek
      have hlen := (Scan.commentText_le_statement c.rest).trans (Scan.statement_le_length _)
      obtain ⟨-, hspan⟩ := c.comment_tag
      rw [Cursor.advance_advance, ← hcount] at hstops hspan ⊢
      obtain ⟨tokens, hrow, hmarks⟩ := (Walk.skipTrivia false _).exists_row hstops
      have hscan : Token.scan true '#' tail = .ok (.comment, Scan.commentText c.rest) := by
        rw [hrest]
        rfl
      refine ⟨_, .cons hrest hscan (by omega) hlen hrow, ?_⟩
      have hcomment : (Statement.comment c.comment).nodes.flatMap Node.marks =
          [⟨.comment, c.comment.span⟩] := rfl
      rw [hcomment, hspan]
      exact congrArg (List.cons _) hmarks
  | command h =>
      have hmarks := h.marked (hmarked false)
      obtain ⟨tokens, hrow, hmarks⟩ := (hmarks.cons rfl).before (.skipTrivia false d) hnone
        |>.exists_row hstops
      obtain ⟨hname, -⟩ := h
      obtain ⟨x, tail, hrest, hx⟩ := Scan.exists_of_commandName hname
      exact ⟨tokens, hrow.lineStart (Cursor.peek_of_cons hrest) hx
        (hlt.trans_le d.le_skipTrivia), hmarks⟩
  | macroCommand h =>
      obtain ⟨tokens, hrow, hmarks⟩ := ((h.marked (hmarked true)).cons rfl).before
        (.skipTrivia false d) hnone |>.exists_row hstops
      obtain ⟨tail, hrest⟩ := List.head?_eq_some_iff.mp h.peek
      have hscan : Token.scan true '$' tail = .ok (.macroSigil, 1) :=
        Token.scan_dollar (hrest ▸ h.startsOrdinary)
      have hlen : 1 ≤ c.rest.length := Cursor.length_pos_of_peek h.peek
      exact ⟨_, .cons hrest hscan Nat.one_pos hlen hrow, hmarks⟩
  | error => cases hnone

theorem Token.Row.newline (lineStart : Bool) (hpeek : c.peek = some '\n') :
    ∃ token, Token.Row lineStart c [token] true (c.advance 1) ∧ token.mark? = none := by
  obtain ⟨tail, hrest⟩ := List.head?_eq_some_iff.mp hpeek
  exact ⟨_, .cons hrest rfl Nat.one_pos (Cursor.length_pos_of_peek hpeek) .nil, rfl⟩

/-- The tokens of the statements from a place to the end of the text. Only a line break makes
room for a statement, and a statement ends at one. -/
theorem StatementsAt.exists_row {arguments : Bool → Cursor → List Argument → Cursor → Prop}
    {statements : List Statement} {lineStart : Bool}
    (hplaced : ∀ inMacro, ArgumentsPlaced (arguments inMacro))
    (hmarked : ∀ inMacro, ArgumentsMarked (arguments inMacro))
    (hstart : lineStart = true ∨ Scan.atLineEnd c.skipTrivia.rest)
    (h : StatementsAt arguments c statements)
    (hnone : placeholders (statements.flatMap Statement.nodes) = []) :
    ∃ tokens after e, Token.Row lineStart c.skipTrivia tokens after e ∧ e.rest = [] ∧
      tokens.filterMap Token.mark? =
        (statements.flatMap Statement.nodes).flatMap Node.marks := by
  induction h generalizing lineStart with
  | nil hpeek => exact ⟨[], lineStart, _, .nil, List.head?_eq_none_iff.mp hpeek, rfl⟩
  | @newline c _ hpeek _ ih =>
      obtain ⟨token, hnewline, htoken⟩ := Token.Row.newline lineStart hpeek
      obtain ⟨trivia, hrow, htrivia⟩ := exists_row_skipTrivia (c.skipTrivia.advance 1)
      obtain ⟨tokens, after, e, hrest, hend, hmarks⟩ := ih (.inl rfl) hnone
      refine ⟨_, after, e, (hnewline.trans hrow).trans hrest, hend, ?_⟩
      rw [List.filterMap_append, List.filterMap_append, htrivia, hmarks,
        List.filterMap_cons_none htoken]
      rfl
  | @cons c d first _ hline hfirst _ ih =>
      obtain rfl : lineStart = true := by
        rcases hstart with hstart | hstart
        · exact hstart
        · rw [hline] at hstart
          cases hstart
      rw [List.flatMap_cons, placeholders_append, List.append_eq_nil_iff] at hnone
      obtain ⟨-, -, -, hstop, -⟩ := hfirst.exists_stop hplaced hline
      obtain ⟨tokens, hrow, hmarks⟩ := hfirst.exists_row hplaced hmarked hline hnone.1
      obtain ⟨others, after, e, hrest, hend, hothers⟩ := ih (.inr hstop) hnone.2
      refine ⟨_, after, e, hrow.trans hrest, hend, ?_⟩
      rw [List.filterMap_append, hmarks, hothers, List.flatMap_cons, List.flatMap_append]

/-! ### Documents -/

/-- The document of a strict parse stands in the text and has no placeholders. -/
theorem Document.statementsAt_of_parse {options : ParseOptions} {document : Document}
    (h : Document.parse text options = .ok (.ok document)) :
    StatementsAt (ArgumentsAt options.maxDepth) (.start text) document.statements ∧
      placeholders document.nodes = [] := by
  have hlockstep := Document.run_lockstep text options
  obtain ⟨result, log, next, htolerant, hstatements⟩ := Document.exists_run_tolerant text options
  have htold := Document.run_told htolerant
  rw [htolerant] at hlockstep
  rw [Document.parse] at h
  generalize Document.run .strict options text = strict at hlockstep h
  cases hlockstep with
  | done hlog _ =>
      cases h
      exact ⟨hstatements, htold.eq_nil_iff.mpr (firstError?_eq_none_iff.mp hlog)⟩
  | recovered => cases h

/-- The marks among the tokens of a text are those of its document, in order. -/
theorem Document.exists_tokens {options : ParseOptions} {document : Document}
    (h : Document.parse text options = .ok (.ok document)) :
    ∃ tokens after e, Token.ofText text = .ok tokens ∧
      Token.Row true (.start text) tokens after e ∧
        tokens.filterMap Token.mark? = document.marks := by
  obtain ⟨hstatements, hnone⟩ := Document.statementsAt_of_parse h
  obtain ⟨trivia, htrivia, hskip⟩ := exists_row_skipTrivia (.start text)
  obtain ⟨tokens, after, e, hrow, hend, hmarks⟩ :=
    hstatements.exists_row (ArgumentsAt.argumentsPlaced options.maxDepth)
      (ArgumentsAt.marked options.maxDepth) (.inl rfl) hnone
  have hall := htrivia.trans hrow
  refine ⟨_, after, e, hall.ofCursor_eq le_rfl hend, hall, ?_⟩
  rw [List.filterMap_append, hskip, hmarks]
  rfl

/-- What marks a row of tokens has, it has as tokens that share their text with no other. -/
theorem Token.Row.isToken {lineStart after : Bool} {tokens : List Token} {mark : Mark}
    (h : Token.Row lineStart c tokens after d) (hmark : mark ∈ tokens.filterMap Token.mark?) :
    mark.IsToken tokens := by
  obtain ⟨token, hmem, htoken⟩ := List.mem_filterMap.mp hmark
  obtain ⟨hfull, hpairwise⟩ := h.ordered
  obtain ⟨-, rfl⟩ : token.kind.isMark = true ∧ Mark.mk token.kind token.span = mark := by
    simpa [Token.mark?] using htoken
  refine ⟨token, ?_, rfl, rfl⟩
  obtain ⟨front, back, rfl⟩ := List.append_of_mem hmem
  rw [List.pairwise_append, List.pairwise_cons] at hpairwise
  obtain ⟨-, ⟨hback, -⟩, hfront⟩ := hpairwise
  have hself : token.span.overlaps token.span = true := by
    have := (hfull token (by simp)).2
    simp [Span.overlaps, this]
  have hbefore : front.filter (fun other => other.span.overlaps token.span) = [] := by
    refine List.filter_eq_nil_iff.mpr fun other hother => ?_
    have := hfront other hother token (by simp)
    simp only [Span.overlaps, Bool.and_eq_true, decide_eq_true_eq]
    omega
  have hafter : back.filter (fun other => other.span.overlaps token.span) = [] := by
    refine List.filter_eq_nil_iff.mpr fun other hother => ?_
    have := hback other hother
    simp only [Span.overlaps, Bool.and_eq_true, decide_eq_true_eq]
    omega
  rw [List.filter_append, List.filter_cons, hbefore, hself, hafter]
  rfl

/-- Every text that the strict parser accepts, whatever the limit on nesting, is read to its end
as a row of tokens, among which each comment, each quoted string and each interpolation outside
quotes is exactly one. -/
theorem Token.ofText_agrees (text : String) (options : ParseOptions) (document : Document)
    (h : Document.parse text options = .ok (.ok document)) :
    ∃ tokens, Token.ofText text = .ok tokens ∧ document.AgreesWith tokens := by
  obtain ⟨tokens, after, e, hread, hrow, hmarks⟩ := Document.exists_tokens h
  have htoken : ∀ {node mark}, node ∈ document.nodes → mark ∈ node.marks →
      mark.IsToken tokens := by
    intro node mark hnode hmark
    refine hrow.isToken ?_
    rw [hmarks]
    exact List.mem_flatMap.mpr ⟨node, hnode, hmark⟩
  refine ⟨tokens, hread, ?_, ?_, ?_, ?_, ?_⟩
  · intro comment hcomment
    have hnode : Node.comment comment ∈ document.nodes :=
      List.mem_flatMap.mpr ⟨.comment comment, hcomment, by simp [Statement.nodes]⟩
    exact htoken hnode (List.mem_singleton_self _)
  · intro literal hnode hquote
    exact htoken hnode (by simp [Node.marks, StringLiteral.marks, hquote])
  · intro argument hnode hquote
    exact htoken hnode (by simp [Node.marks, Interpolated.marks, hquote])
  · intro argument hnode hquote piece hpiece
    refine htoken hnode ?_
    rw [Node.marks, Interpolated.marks, if_pos hquote, List.mem_map]
    exact ⟨piece, List.mem_filterMap.mpr ⟨_, hpiece, rfl⟩, rfl⟩
  · intro command piece hnode hname
    exact htoken hnode (by simp [Node.marks, hname, MacroName.marks])

/-- A comment, and a macro line with a name, a string, bare text and quoted text to be read. -/
theorem Token.ofText_agrees_macro :
    ∃ document, Document.parse "# a\n$$(b) [\"c\"] d$(e)#f \"g $(h)\"" {} = .ok (.ok document) ∧
      document.marks = [⟨.comment, ⟨0, 3⟩⟩, ⟨.interpolation, ⟨5, 9⟩⟩, ⟨.string, ⟨11, 14⟩⟩,
        ⟨.interpolation, ⟨17, 21⟩⟩, ⟨.string, ⟨24, 32⟩⟩] ∧
      ∃ tokens, Token.ofText "# a\n$$(b) [\"c\"] d$(e)#f \"g $(h)\"" = .ok tokens ∧
        document.AgreesWith tokens := by
  have hmarks : (Document.parse "# a\n$$(b) [\"c\"] d$(e)#f \"g $(h)\"" {}).map
      (·.map Document.marks) = .ok (.ok [⟨.comment, ⟨0, 3⟩⟩, ⟨.interpolation, ⟨5, 9⟩⟩,
        ⟨.string, ⟨11, 14⟩⟩, ⟨.interpolation, ⟨17, 21⟩⟩, ⟨.string, ⟨24, 32⟩⟩]) := by
    decide +kernel
  generalize hparse : Document.parse "# a\n$$(b) [\"c\"] d$(e)#f \"g $(h)\"" {} = parsed at hmarks
  obtain fault | error | document := parsed
  · cases hmarks
  · cases hmarks
  · exact ⟨document, rfl, Except.ok.inj (Except.ok.inj hmarks), ofText_agrees _ _ _ hparse⟩

end Mcfunction
