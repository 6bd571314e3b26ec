import Mcfunction.Proofs.Modes

/-!
# Where Statements Start

A text is split into statements by its line breaks and line continuations alone:
`Cursor.statementStarts` skips trivia and line breaks, notes the place, and goes on where the
statement there ends. The statements of a tolerant parse start at these places, unless recovery
stops in the middle of a line continuation. Then the rest of that continuation is taken for the
end of the line, and what follows it on the next line for a statement of its own.

## Main results

* `statement_starts_iff`: the statements of a tolerant parse start where the text is split, and
  nowhere else if and only if no statement is cut short inside a line continuation.
-/

namespace Mcfunction

/-! ### Splitting a text -/

namespace Cursor

theorem length_statementEnd_lt {c : Cursor} {x : Char} {rest : List Char}
    (h : c.rest = x :: rest) (hx : x ≠ '\n') : c.statementEnd.rest.length < c.rest.length := by
  have hpos : 0 < Scan.statement c.rest := h ▸ Scan.statement_pos hx
  have hle := Scan.statement_le_length c.rest
  rw [statementEnd, advance_rest, List.length_drop]
  omega

theorem length_advance_one_lt {c : Cursor} {x : Char} {rest : List Char}
    (h : c.rest = x :: rest) : (c.advance 1).rest.length < c.rest.length := by
  rw [advance_rest, h]
  exact Nat.lt_succ_self _

/-- The offsets where the statements from the cursor on start. -/
def statementStarts (c : Cursor) : List Nat :=
  have hle := length_le_of_le c.le_skipTrivia
  match h : c.skipTrivia.rest with
  | [] => []
  | x :: _ =>
    if hx : x = '\n' then
      have := (length_advance_one_lt h).trans_le hle
      (c.skipTrivia.advance 1).statementStarts
    else
      have := (length_statementEnd_lt h hx).trans_le hle
      c.skipTrivia.offset :: c.skipTrivia.statementEnd.statementStarts
termination_by c.rest.length

end Cursor

/-- The statement ends inside a line continuation although it has more text after it. -/
def CutShort (text : String) (statement : Statement) : Prop :=
  ∃ c n, Cursor.start text ≤ c ∧ Scan.continuation c.rest = some n ∧
    c.offset < statement.span.stop ∧ statement.span.stop < c.offsetAfter n ∧
    Scan.atStatementEnd (c.rest.drop n) = false

namespace Cursor

variable {c d : Cursor}

/-- Where a statement has ended, its end is behind the trivia. -/
theorem statementEnd_of_atStatementEnd (h : Scan.atLineEnd c.skipTrivia.rest) :
    c.statementEnd = c.skipTrivia := by
  rw [skipTrivia, advance_rest] at h
  rw [statementEnd, skipTrivia, Scan.statement_of_atStatementEnd h]

/-- At the end of a statement the line ends. -/
theorem atLineEnd_statementEnd (c : Cursor) : Scan.atLineEnd c.statementEnd.rest := by
  rw [statementEnd, advance_rest]
  exact Scan.atLineEnd_drop_statement c.rest

/-- At the end of the text no statement starts. -/
theorem statementStarts_nil (h : c.skipTrivia.peek = none) : c.statementStarts = [] := by
  have hrest : c.skipTrivia.rest = [] := List.head?_eq_none_iff.mp h
  rw [statementStarts]
  split
  · rfl
  · simp_all

/-- Behind a line feed the statements of the next line start. -/
theorem statementStarts_newline (h : c.skipTrivia.peek = some '\n') :
    c.statementStarts = (c.skipTrivia.advance 1).statementStarts := by
  obtain ⟨tail, hrest⟩ := List.head?_eq_some_iff.mp h
  rw [statementStarts]
  split
  · simp_all
  · simp_all

/-- At any other place a statement starts, and the others behind its end. -/
theorem statementStarts_cons (h : Scan.atLineEnd c.skipTrivia.rest = false) :
    c.statementStarts = c.skipTrivia.offset :: c.skipTrivia.statementEnd.statementStarts := by
  rw [statementStarts]
  split
  · simp_all [Scan.atLineEnd]
  · simp_all [Scan.atLineEnd]

/-- Trivia do not change where statements start. -/
theorem statementStarts_skipTrivia (c : Cursor) :
    c.skipTrivia.statementStarts = c.statementStarts := by
  have hsame := c.skipTrivia_skipTrivia
  rcases hrest : c.skipTrivia.rest with _ | ⟨x, rest⟩
  · have hpeek : c.skipTrivia.peek = none := by rw [peek, hrest]; rfl
    rw [statementStarts_nil hpeek, statementStarts_nil (hsame.symm ▸ hpeek)]
  · by_cases hx : x = '\n'
    · have hpeek : c.skipTrivia.peek = some '\n' := by rw [peek, hrest, hx]; rfl
      rw [statementStarts_newline hpeek, statementStarts_newline (hsame.symm ▸ hpeek), hsame]
    · have hline : Scan.atLineEnd c.skipTrivia.rest = false := by
        simpa [hrest, Scan.atLineEnd] using hx
      rw [statementStarts_cons hline, statementStarts_cons (hsame.symm ▸ hline), hsame]

/-- No statement starts before the place from which the text is split. -/
theorem le_of_mem_statementStarts {offset : Nat} (h : offset ∈ c.statementStarts) :
    c.offset ≤ offset := by
  induction hlen : c.rest.length using Nat.strong_induction_on generalizing c with
  | _ length ih =>
      have hle := offset_le_of_le c.le_skipTrivia
      have hlength := length_le_of_le c.le_skipTrivia
      rcases hrest : c.skipTrivia.rest with _ | ⟨x, rest⟩
      · rw [statementStarts_nil (by rw [peek, hrest]; rfl)] at h
        cases h
      · by_cases hx : x = '\n'
        · have hnext : c.skipTrivia < c.skipTrivia.advance 1 :=
            lt_advance Nat.one_pos (by simp [hrest])
          have hshort := length_lt_of_lt hnext
          rw [statementStarts_newline (by rw [peek, hrest, hx]; rfl)] at h
          have hlt := ih _ (by omega) h rfl
          have := offset_le_of_le hnext.le
          omega
        · rw [statementStarts_cons (by simpa [hrest, Scan.atLineEnd] using hx)] at h
          rcases List.mem_cons.mp h with rfl | h
          · exact hle
          · have hshort := length_statementEnd_lt hrest hx
            have := ih _ (by omega) h rfl
            have := offset_le_of_le c.skipTrivia.le_statementEnd
            omega

end Cursor

/-! ### Places inside a line continuation -/

/-- `d` stands inside the line continuation of `n` characters at `k`. -/
structure InContinuation (k d : Cursor) (n : Nat) : Prop where
  /-- A continuation starts at `k`. -/
  continuation : Scan.continuation k.rest = some n
  /-- Its backslash stands before `d`. -/
  lt : k < d
  /-- Its line break stands after `d`. -/
  lt_end : d < k.advance n

namespace InContinuation

variable {c d k : Cursor} {n : Nat}

/-- What is left of the continuation is blanks and a line break. -/
theorem rest_eq (h : InContinuation k d n) :
    ∃ gap tail, d.rest = gap ++ '\n' :: tail ∧ (∀ x ∈ gap, Scan.isBlank x) ∧
      k.advance n = d.advance (gap.length + 1) := by
  obtain ⟨m, hm, rfl⟩ := Cursor.le_iff_exists_advance.mp h.lt.le
  have hpos : 0 < m := by
    rcases Nat.eq_zero_or_pos m with rfl | hpos
    · have hlt := h.lt
      rw [Cursor.advance_zero] at hlt
      exact absurd hlt (lt_irrefl k)
    · exact hpos
  have hmn : m < n := by
    by_contra hle
    have hle' := Cursor.advance_le_advance (Nat.le_of_not_lt hle) hm
    exact absurd (hle'.trans_lt h.lt_end) (lt_irrefl _)
  obtain ⟨gap, tail, hdrop, hgap, hlen, -⟩ :=
    Scan.drop_continuation h.continuation hpos hmn
  refine ⟨gap, tail, by rw [Cursor.advance_rest, hdrop], hgap, ?_⟩
  rw [Cursor.advance_advance, ← hlen, Nat.add_assoc]

/-- From a place inside a continuation, the statement ends before its line break. -/
theorem statementEnd_lt (h : InContinuation k d n) : d.statementEnd < k.advance n := by
  obtain ⟨gap, tail, hrest, hgap, hend⟩ := h.rest_eq
  rw [hend, Cursor.statementEnd, hrest, Scan.statement_blanks gap tail hgap,
    ← Cursor.advance_advance]
  refine Cursor.lt_advance Nat.one_pos ?_
  rw [Cursor.advance_rest, hrest]
  simp

/-- No continuation starts inside another one. -/
theorem continuation_eq_none (h : InContinuation k d n) : Scan.continuation d.rest = none := by
  obtain ⟨gap, tail, hrest, hgap, -⟩ := h.rest_eq
  rcases hcont : Scan.continuation d.rest with _ | m
  · rfl
  · obtain ⟨gap', tail', hslash, -, -⟩ := Scan.continuation_eq_some hcont
    rw [hrest] at hslash
    rcases gap with _ | ⟨x, gap⟩
    · exact absurd (List.cons.inj hslash).1 (by decide)
    · have hx := hgap x (by simp)
      rw [(List.cons.inj hslash).1] at hx
      exact absurd hx (by decide)

/-- A text split inside a continuation is split as after it. -/
theorem statementStarts_eq (h : InContinuation k d n) :
    d.skipTrivia.peek = some '\n' ∧ d.skipTrivia.advance 1 = k.advance n := by
  obtain ⟨gap, tail, hrest, hgap, hend⟩ := h.rest_eq
  have hskip : d.skipTrivia = d.advance gap.length := by
    rw [Cursor.skipTrivia, hrest, Scan.trivia_blanks gap tail hgap]
  refine ⟨?_, ?_⟩
  · rw [hskip, Cursor.peek, Cursor.advance_rest, hrest]
    simp
  · rw [hskip, Cursor.advance_advance, hend]

end InContinuation

/-- From a place of a statement the statement ends where it does, or the place stands inside a
line continuation of it. -/
theorem Within.aligned_or_inContinuation {c d : Cursor} (h : Within c d) :
    d.statementEnd = c.statementEnd ∨
      ∃ k n, c ≤ k ∧ InContinuation k d n ∧ (k.advance n).statementEnd = c.statementEnd := by
  obtain ⟨m, hm, rfl⟩ := h.exists_advance
  have hlen := Scan.statement_le_length c.rest
  rcases Scan.statement_drop_or_torn hm with heq | ⟨j, n, ⟨hcont, hjm, hmj⟩, hle, heq⟩
  · left
    rw [Cursor.statementEnd, Cursor.statementEnd, Cursor.advance_rest, Cursor.advance_advance, heq]
  · right
    rw [Scan.statement_of_continuation hcont, List.drop_drop, ← Nat.add_assoc] at heq
    refine ⟨c.advance j, n, Cursor.le_advance (by omega),
      ⟨by rwa [Cursor.advance_rest], ?_, ?_⟩, ?_⟩
    · exact Cursor.advance_lt_advance hjm (by omega)
    · rw [Cursor.advance_advance]
      exact Cursor.advance_lt_advance hmj (by omega)
    · simp only [Cursor.statementEnd, Cursor.advance_advance, Cursor.advance_rest, heq]

/-- A statement that ends inside a continuation with more text after it. -/
theorem cutShort_iff_inContinuation {text : String} {c d : Cursor} {statement : Statement}
    (htext : Cursor.start text ≤ c) (hblank : Scan.trivia c.rest = 0)
    (hline : Scan.atLineEnd c.rest = false) (hwithin : Within c d)
    (hstop : statement.span.stop = d.offset) :
    CutShort text statement ↔ ∃ k n, c ≤ k ∧ InContinuation k d n ∧
      (k.advance n).statementEnd = c.statementEnd ∧
      Scan.atLineEnd (k.advance n).skipTrivia.rest = false := by
  have hend : ∀ (k : Cursor) (n : Nat), Scan.atStatementEnd (k.rest.drop n) =
      Scan.atLineEnd (k.advance n).skipTrivia.rest := by
    intro k n
    rw [Scan.atStatementEnd, Cursor.skipTrivia, Cursor.advance_rest, Cursor.advance_rest]
  constructor
  · rintro ⟨k, n, hk, hcont, hlt, hlt', htail⟩
    rw [hstop] at hlt hlt'
    have hd := htext.trans hwithin.le
    have hkn : k ≤ k.advance n := Cursor.le_advance (Scan.continuation_le_length hcont)
    have hin : InContinuation k d n :=
      ⟨hcont, Cursor.lt_iff.mpr ⟨Cursor.le_of_offset_le hk hd hlt.le, hlt⟩,
        Cursor.lt_iff.mpr ⟨Cursor.le_of_offset_le hd (hk.trans hkn) hlt'.le, hlt'⟩⟩
    -- the statement does not start inside the continuation
    have hck : c ≤ k := by
      rcases Nat.lt_or_ge k.offset c.offset with hlt | hge
      · exfalso
        have hin' : InContinuation k c n :=
          ⟨hcont, Cursor.lt_iff.mpr ⟨Cursor.le_of_offset_le hk htext hlt.le, hlt⟩,
            hwithin.le.trans_lt hin.lt_end⟩
        obtain ⟨gap, tail, hrest, hgap, -⟩ := hin'.rest_eq
        rw [hrest, Scan.trivia_blanks gap tail hgap] at hblank
        obtain rfl := List.eq_nil_of_length_eq_zero hblank
        rw [hrest] at hline
        cases hline
      · exact Cursor.le_of_offset_le htext hk hge
    have hkend : k.statementEnd = (k.advance n).statementEnd := by
      rw [Cursor.statementEnd, Cursor.statementEnd, Scan.statement_of_continuation hcont,
        Cursor.advance_advance, Cursor.advance_rest]
    refine ⟨k, n, hck, hin, ?_, by rw [← hend, htail]⟩
    have hkwithin : Within c k := ⟨hck, hin.lt.le.trans hwithin.le_end⟩
    rcases hkwithin.aligned_or_inContinuation with heq | ⟨k', n', -, hin', -⟩
    · rw [← hkend, heq]
    · rw [hin'.continuation_eq_none] at hcont
      cases hcont
  · rintro ⟨k, n, hck, hin, -, htail⟩
    refine ⟨k, n, htext.trans hck, hin.continuation, ?_, ?_, by rw [hend, htail]⟩
    · rw [hstop]
      exact Cursor.offset_lt_of_lt hin.lt
    · rw [hstop]
      exact Cursor.offset_lt_of_lt hin.lt_end

/-! ### Where parsers stop -/

namespace Scan

variable {chars : List Char} {m : Nat}

/-- If only blanks are left of a statement, it ends after them. -/
theorem statement_drop_of_blanks (hm : m ≤ statement chars)
    (hblank : ∀ x ∈ (chars.take (statement chars)).drop m, isBlank x) :
    m + statement (chars.drop m) = statement chars ∧ atStatementEnd (chars.drop m) := by
  have hsplit : chars.drop m =
      (chars.take (statement chars)).drop m ++ chars.drop (statement chars) := by
    have hlen : m ≤ (chars.take (statement chars)).length := by
      rwa [List.length_take_of_le (statement_le_length chars)]
    rw [← List.drop_append_of_le_length hlen, List.take_append_drop]
  have hend := atLineEnd_drop_statement chars
  have htrivia : trivia (chars.drop m) = statement chars - m := by
    rw [hsplit, trivia_append _ _ hblank, trivia_of_atLineEnd hend, List.length_drop,
      List.length_take_of_le (statement_le_length chars), Nat.add_zero]
  have hstop : atStatementEnd (chars.drop m) := by
    rw [atStatementEnd, htrivia, List.drop_drop, Nat.add_sub_cancel' hm]
    exact hend
  refine ⟨?_, hstop⟩
  rw [statement_of_atStatementEnd hstop, htrivia, Nat.add_sub_cancel' hm]

/-- The text of a comment goes up to the end of the statement, but for a carriage return. -/
theorem commentText_add_statement (chars : List Char) :
    commentText chars + statement (chars.drop (commentText chars)) = statement chars ∧
      atStatementEnd (chars.drop (commentText chars)) := by
  refine statement_drop_of_blanks (commentText_le_statement chars) ?_
  rw [commentText]
  split
  · rename_i hreturn
    obtain ⟨front, hfront⟩ := List.getLast?_eq_some_iff.mp (by simpa using hreturn)
    have hlen := congrArg List.length hfront
    rw [List.length_take_of_le (statement_le_length chars), List.length_append,
      List.length_singleton] at hlen
    rw [hfront, hlen, Nat.add_sub_cancel, List.drop_left]
    simp [isBlank]
  · simp

/-- What is trimmed off a statement are blanks. -/
theorem isBlank_of_mem_drop_trimmedStatement (chars : List Char) :
    ∀ x ∈ (chars.take (statement chars)).drop (trimmedStatement chars), isBlank x := by
  rw [trimmedStatement]
  generalize chars.take (statement chars) = line
  have hsplit := List.takeWhile_append_dropWhile (p := isBlank) (l := line.reverse)
  have hline : line = trimEnd line ++ (line.reverse.takeWhile isBlank).reverse := by
    rw [trimEnd, ← List.reverse_append, hsplit, List.reverse_reverse]
  have htail : line.drop (trimEnd line).length = (line.reverse.takeWhile isBlank).reverse := by
    calc line.drop (trimEnd line).length
        = (trimEnd line ++ (line.reverse.takeWhile isBlank).reverse).drop
            (trimEnd line).length := congrArg (List.drop _) hline
      _ = (line.reverse.takeWhile isBlank).reverse := List.drop_left
  intro x hx
  rw [htail, List.mem_reverse] at hx
  exact List.mem_takeWhile_imp hx

/-- A statement that is trimmed ends where it did. -/
theorem trimmedStatement_add_statement (chars : List Char) :
    trimmedStatement chars + statement (chars.drop (trimmedStatement chars)) =
      statement chars :=
  (statement_drop_of_blanks (trimmedStatement_le_statement chars)
    (isBlank_of_mem_drop_trimmedStatement chars)).1

end Scan

/-- A place within a statement has the same end. -/
theorem Cursor.statementEnd_advance {c : Cursor} {n : Nat}
    (h : n + Scan.statement (c.rest.drop n) = Scan.statement c.rest) :
    (c.advance n).statementEnd = c.statementEnd := by
  rw [statementEnd, statementEnd, advance_rest, advance_advance, h]

/-- Where a statement ends and where its parser stops: either at one place, or each with at most
blanks left of the statement. -/
theorem StatementAt.exists_stop {arguments : Bool → Cursor → List Argument → Cursor → Prop}
    {c d : Cursor} {statement : Statement}
    (harguments : ∀ inMacro, ArgumentsPlaced (arguments inMacro))
    (hline : Scan.atLineEnd c.rest = false) (h : StatementAt arguments c statement d) :
    ∃ e, statement.span = c.spanTo e ∧ Within c e ∧ Scan.atLineEnd d.skipTrivia.rest ∧
      (e = d ∨ e.statementEnd = c.statementEnd ∧ d.statementEnd = c.statementEnd) := by
  have hwithin := (h.forward harguments hline).2
  cases h with
  | comment hpeek =>
      refine ⟨_, c.comment_tag.2, hwithin, ?_, .inl rfl⟩
      have htext := (Scan.commentText_add_statement (c.rest.drop (Scan.commentTag c.rest).1)).2
      rw [Scan.atStatementEnd] at htext
      simpa [Cursor.skipTrivia] using htext
  | command h =>
      have hplaced := h.placed (harguments false)
      obtain ⟨-, hargs⟩ := h
      exact ⟨d, hplaced.span_eq, hwithin, (harguments false).atLineEnd hargs, .inl rfl⟩
  | macroCommand h =>
      have hplaced := h.placed (harguments true)
      obtain ⟨-, -, hargs⟩ := h
      exact ⟨d, hplaced.span_eq, hwithin, (harguments true).atLineEnd hargs, .inl rfl⟩
  | error hspan =>
      have hend := c.atLineEnd_statementEnd
      refine ⟨_, hspan, .advance (Scan.trimmedStatement_le_statement _), ?_, .inr ⟨?_, ?_⟩⟩
      · rwa [Cursor.skipTrivia_of_atLineEnd hend]
      · exact Cursor.statementEnd_advance (Scan.trimmedStatement_add_statement c.rest)
      · rw [Cursor.statementEnd_of_atStatementEnd (by rwa [Cursor.skipTrivia_of_atLineEnd hend]),
          Cursor.skipTrivia_of_atLineEnd hend]

/-! ### After a statement -/

namespace InContinuation

variable {c d k : Cursor} {n : Nat}

/-- From a place inside a continuation of a statement, the statement ends too early. -/
theorem statementEnd_ne (h : InContinuation k d n)
    (hend : (k.advance n).statementEnd = c.statementEnd) : d.statementEnd ≠ c.statementEnd := by
  intro heq
  have hlt := h.statementEnd_lt.trans_le (k.advance n).le_statementEnd
  rw [hend, heq] at hlt
  exact lt_irrefl _ hlt

/-- A place stands inside one continuation only. -/
theorem advance_unique {k' : Cursor} {n' : Nat} (h : InContinuation k d n)
    (h' : InContinuation k' d n') : k.advance n = k'.advance n' :=
  h.statementStarts_eq.2.symm.trans h'.statementStarts_eq.2

end InContinuation

namespace Cursor

variable {c : Cursor}

/-- Behind the trivia the statement has the same end. -/
theorem statementEnd_skipTrivia (c : Cursor) : c.skipTrivia.statementEnd = c.statementEnd := by
  rw [statementEnd, statementEnd, skipTrivia, advance_advance, advance_rest,
    ← Scan.statement_eq_trivia_add]

theorem lt_statementEnd (h : Scan.atLineEnd c.rest = false) : c < c.statementEnd := by
  have hlen := List.length_pos_iff.mpr (Parser.ne_nil_of_not_atLineEnd h)
  exact (lt_advance Nat.one_pos hlen).trans_le (Within.next h).le_end

/-- If a statement ends here, the text is split from there on. -/
theorem statementStarts_statementEnd
    (h : Scan.atLineEnd c.skipTrivia.rest) :
    c.statementEnd.statementStarts = c.statementStarts := by
  rw [statementEnd_of_atStatementEnd h, statementStarts_skipTrivia]

end Cursor

section

variable {text : String} {arguments : Bool → Cursor → List Argument → Cursor → Prop}
  {c d : Cursor} {first : Statement}
  {statements : List Statement}

/-- The statements behind a line feed are those of the rest. -/
theorem StatementsAt.of_newline (hnewline : c.skipTrivia.peek = some '\n')
    (h : StatementsAt arguments c statements) :
    StatementsAt arguments (c.skipTrivia.advance 1) statements := by
  cases h with
  | nil hpeek => simp [hnewline] at hpeek
  | newline _ h => exact h
  | cons hline =>
      obtain ⟨rest, hrest⟩ := List.head?_eq_some_iff.mp hnewline
      rw [hrest] at hline
      cases hline

variable (harguments : ∀ inMacro, ArgumentsPlaced (arguments inMacro))

include harguments

/-- A statement starts where it is read. -/
theorem StatementAt.span_start (hline : Scan.atLineEnd c.rest = false)
    (h : StatementAt arguments c first d) : first.span.start = c.offset := by
  obtain ⟨e, hspan, -⟩ := h.exists_stop harguments hline
  rw [hspan]
  rfl

/-- Where a line is not empty, a statement starts. -/
theorem StatementsAt.exists_start (hline : Scan.atLineEnd c.skipTrivia.rest = false)
    (h : StatementsAt arguments c statements) :
    c.skipTrivia.offset ∈ statements.map (·.span.start) := by
  cases h with
  | nil hpeek =>
      rw [List.head?_eq_none_iff.mp hpeek] at hline
      cases hline
  | newline hpeek =>
      obtain ⟨rest, hrest⟩ := List.head?_eq_some_iff.mp hpeek
      rw [hrest] at hline
      cases hline
  | cons hline hfirst _ =>
      rw [List.map_cons, hfirst.span_start harguments hline]
      exact List.mem_cons_self

/-- Where the next line starts after a statement: at its end, unless it is cut short. Then the
next line starts with what it leaves over. -/
theorem StatementAt.next_line (htext : Cursor.start text ≤ c) (hblank : Scan.trivia c.rest = 0)
    (hline : Scan.atLineEnd c.rest = false) (h : StatementAt arguments c first d) :
    (¬ CutShort text first ∧ d.statementStarts = c.statementEnd.statementStarts) ∨
      (CutShort text first ∧ d.skipTrivia.peek = some '\n' ∧
        Scan.atLineEnd (d.skipTrivia.advance 1).skipTrivia.rest = false ∧
        (d.skipTrivia.advance 1).skipTrivia.statementEnd = c.statementEnd) := by
  have hwithin := (h.forward harguments hline).2
  obtain ⟨e, hspan, hce, hdline, hstop⟩ := h.exists_stop harguments hline
  have hend : first.span.stop = e.offset := by rw [hspan]; rfl
  have hcut := cutShort_iff_inContinuation htext hblank hline hce hend
  have haligned : e.statementEnd = c.statementEnd → d.statementEnd = c.statementEnd →
      ¬ CutShort text first ∧ d.statementStarts = c.statementEnd.statementStarts := by
    intro he hd
    refine ⟨fun h => ?_, by rw [← hd, Cursor.statementStarts_statementEnd hdline]⟩
    obtain ⟨k, n, -, hin, hend, -⟩ := hcut.mp h
    exact hin.statementEnd_ne hend he
  rcases hstop with rfl | ⟨he, hd⟩
  · rcases hwithin.aligned_or_inContinuation with hd | ⟨k, n, hck, hin, hend⟩
    · exact .inl (haligned hd hd)
    · obtain ⟨hnewline, hnext⟩ := hin.statementStarts_eq
      rcases hover : Scan.atLineEnd (k.advance n).skipTrivia.rest
      · -- more text of the statement follows the continuation
        refine .inr ⟨hcut.mpr ⟨k, n, hck, hin, hend, hover⟩, hnewline, by rw [hnext, hover], ?_⟩
        rw [hnext, Cursor.statementEnd_skipTrivia, hend]
      · -- the continuation ends the statement
        refine .inl ⟨fun h => ?_, ?_⟩
        · obtain ⟨k', n', -, hin', -, hover'⟩ := hcut.mp h
          rw [← hin.advance_unique hin', hover] at hover'
          cases hover'
        · rw [← hend, Cursor.statementStarts_statementEnd hover,
            Cursor.statementStarts_newline hnewline, hnext]
  · exact .inl (haligned he hd)

/-- A statement starts at every place where the text is split. -/
theorem StatementsAt.starts_sublist (htext : Cursor.start text ≤ c)
    (h : StatementsAt arguments c statements) :
    c.statementStarts.Sublist (statements.map (·.span.start)) := by
  induction h with
  | nil hpeek => simp [Cursor.statementStarts_nil hpeek]
  | @newline c statements hpeek _ ih =>
      have hnext : c.skipTrivia ≤ c.skipTrivia.advance 1 :=
        Cursor.le_advance_of_peek hpeek
      rw [Cursor.statementStarts_newline hpeek]
      exact ih ((htext.trans c.le_skipTrivia).trans hnext)
  | @cons c d first statements hline hfirst hrest ih =>
      have hstart := htext.trans c.le_skipTrivia
      have hforward := hfirst.forward harguments hline
      have ih := ih (hstart.trans hforward.1.le)
      rw [Cursor.statementStarts_cons hline, List.map_cons,
        hfirst.span_start harguments hline]
      refine List.Sublist.cons_cons _ ?_
      rcases hfirst.next_line harguments hstart c.trivia_skipTrivia hline with
        ⟨-, hsame⟩ | ⟨-, hnewline, hnext, hend⟩
      · rwa [hsame] at ih
      · -- the statement with what is left over ends where the whole one does
        rw [Cursor.statementStarts_newline hnewline, Cursor.statementStarts_cons hnext, hend] at ih
        exact (List.sublist_cons_self _ _).trans ih

/-- The statements start where the text is split, unless one of them is cut short. -/
theorem StatementsAt.starts_iff (htext : Cursor.start text ≤ c)
    (h : StatementsAt arguments c statements) :
    statements.map (·.span.start) = c.statementStarts ↔
      ∀ statement ∈ statements, ¬ CutShort text statement := by
  induction h with
  | nil hpeek => simp [Cursor.statementStarts_nil hpeek]
  | @newline c statements hpeek _ ih =>
      have hnext : c.skipTrivia ≤ c.skipTrivia.advance 1 :=
        Cursor.le_advance_of_peek hpeek
      rw [Cursor.statementStarts_newline hpeek, ih ((htext.trans c.le_skipTrivia).trans hnext)]
  | @cons c d first statements hline hfirst hrest ih =>
      have hstart := htext.trans c.le_skipTrivia
      have hforward := hfirst.forward harguments hline
      rw [Cursor.statementStarts_cons hline, List.map_cons,
        hfirst.span_start harguments hline, List.cons.injEq, List.forall_mem_cons]
      rcases hfirst.next_line harguments hstart c.trivia_skipTrivia hline with
        ⟨hwhole, hsame⟩ | ⟨hcut, hnewline, hnext, hend⟩
      · -- the rest of the text is split after the first statement
        rw [← hsame, ih (hstart.trans hforward.1.le)]
        simp [hwhole]
      · -- what is left over of the first statement starts another one
        refine iff_of_false (fun h => ?_) (fun h => h.1 hcut)
        have hmem := (hrest.of_newline hnewline).exists_start harguments hnext
        rw [h.2] at hmem
        have hle := Cursor.le_of_mem_statementStarts hmem
        have hlt := Cursor.offset_lt_of_lt (Cursor.lt_statementEnd hnext)
        rw [hend] at hlt
        omega

end

/-- A tolerant parse succeeds, and a statement of it starts at every place where the text is
split by line breaks and line continuations. Statements start there alone if and only if none of
them is cut short inside a line continuation. -/
theorem statement_starts_iff (text : String) (options : ParseOptions) :
    ∃ result, Document.parseTolerant text options = .ok result ∧
      (Cursor.start text).statementStarts.Sublist
        (result.document.statements.map (·.span.start)) ∧
      (result.document.statements.map (·.span.start) = (Cursor.start text).statementStarts ↔
        ∀ statement ∈ result.document.statements, ¬ CutShort text statement) := by
  obtain ⟨document, log, next, hrun, hstatements⟩ := Document.exists_run_tolerant text options
  have hplaced := ArgumentsAt.argumentsPlaced options.maxDepth
  refine ⟨⟨document, diagnosticsOf log⟩, by rw [Document.parseTolerant, hrun], ?_, ?_⟩
  · exact hstatements.starts_sublist hplaced (le_refl _)
  · exact hstatements.starts_iff hplaced (le_refl _)

/-- Recovery from `!` stops after the backslash, and `b` becomes a statement of its own. -/
example : (Document.parseTolerant "a!\\\nb" {}).map (·.document.statements.map (·.span.start)) =
    .ok [0, 4] ∧ (Cursor.start "a!\\\nb").statementStarts = [0] :=
  ⟨rfl, by decide +kernel⟩

end Mcfunction
