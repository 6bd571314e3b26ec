import Mcfunction.Proofs.Progress.Scan
import Mcfunction.Proofs.Progress.Turn

/-!
# Every Loop Makes Progress

A parse of a text ends, whatever the text is, how deep containers may nest and what the parse
does with errors. The cursor does not move forward all the time: recovery goes back to where the
malformed argument starts and from there to the end of what it skips, which may lie before the
place that the failed parser had reached. So progress is measured from the place where the
element of a turn starts. Containers and run clauses need no measure of their own, since each
level is defined by recursion on the levels that are left.

## Main results

* `Parser.recover_advances`, `Parser.recoverStatement_advances`: recovery goes forward.
* `Parser.loopsAdvance`, `Scan.loopsAdvance`: all loops make progress.
* `Document.run_advances`: a parse ends, since its loops make progress.
-/

namespace Mcfunction

namespace Parser

variable {s : Settings} {c : Cursor} {error : ParseError}

/-! ### Recovery -/

/-- Recovery ends behind the place where it starts, and in the statement. -/
theorem recover_advances (herror : error.From c) (hline : Scan.atLineEnd c.rest = false) :
    ∃ d, recover error s c =
        .done ⟨error.message, c.spanTo d⟩ [.recovered error (c.spanTo d)] d ∧
      c < d ∧ d ≤ c.statementEnd := by
  obtain ⟨d, hlt, hwithin, hstop⟩ := skipEnd_eq herror hline
  exact ⟨d, recover_run hlt.le hstop, hlt, hwithin.le_end⟩

theorem lt_statementEnd (hline : Scan.atLineEnd c.rest = false) : c < c.statementEnd :=
  have hnext := Within.next hline
  (Cursor.lt_advance Nat.one_pos
    (List.length_pos_iff.mpr (ne_nil_of_not_atLineEnd hline))).trans_le hnext.le_end

/-- A statement that is skipped ends behind the place where it starts. -/
theorem recoverStatement_advances (hline : Scan.atLineEnd c.rest = false) :
    ∃ statement log, recoverStatement error s c = .done statement log c.statementEnd ∧
      c < c.statementEnd :=
  ⟨_, _, recoverStatement_run error, lt_statementEnd hline⟩

/-! ### The loops of the parser -/

/-- The loops of a parse make progress, and so does recovery. Containers and run clauses may have
any number of levels left. -/
structure LoopsAdvance (limit : Nat) (mode : Mode) : Prop where
  /-- A turn over statements ends behind the place where the statement starts. -/
  statements : Loop ⟨limit, mode⟩ Anywhere Cursor.skipTrivia (· ≤ ·)
    (statementTurn (arguments limit)) (fun fuel _ => statements (arguments limit) fuel)
  /-- A turn over arguments ends behind the place where the argument starts. -/
  arguments : ∀ room inMacro, Loop ⟨limit, mode⟩ Anywhere Cursor.skipTrivia (· ≤ ·)
    (argumentTurn (argumentWithin room inMacro))
    (fun fuel afterError => argumentList (argumentWithin room inMacro) afterError fuel)
  /-- A turn over the values of a list ends behind the place where it starts, also the last. -/
  values : ∀ room bracket opener, StartsWithByte opener →
    Loop ⟨limit, mode⟩ (fun _ => Within opener) id (· < ·)
      (elementTurn (value room) bracket opener)
      (fun fuel _ => elements (value room) bracket opener fuel)
  /-- A turn over the pairs of a list or compound does so, too. -/
  pairs : ∀ room bracket opener, StartsWithByte opener →
    Loop ⟨limit, mode⟩ (fun _ => Within opener) id (· < ·)
      (elementTurn (pair (value room)) bracket opener)
      (fun fuel _ => elements (pair (value room)) bracket opener fuel)
  /-- The suffixes of a segment. -/
  suffixes : ∀ room, Loop ⟨limit, mode⟩ Anywhere id (· ≤ ·) (suffixTurn (containers room))
    (fun fuel _ => suffixes (containers room) fuel)
  /-- The segments of a path, each from the end of its name on. -/
  segments : ∀ room, Loop ⟨limit, mode⟩ NamedBefore id (· ≤ ·) (segmentTurn (containers room))
    (fun fuel name => segments (containers room) fuel name)
  /-- The pieces of interpolated text outside quotes. -/
  bareFragments : ∀ inKey, Loop ⟨limit, mode⟩ Anywhere id (· ≤ ·) (bareFragmentTurn inKey)
    (fun fuel _ => bareFragments inKey fuel)
  /-- The pieces of interpolated text in quotes. -/
  quotedFragments : Loop ⟨limit, mode⟩ BeforeQuote id (· ≤ ·) quotedFragmentTurn
    (fun fuel left => quotedFragments fuel left)
  /-- A placeholder ends behind the place where it starts, whatever the error that is found from
  there on says. -/
  recovery : ∀ error c, error.From c → Scan.atLineEnd c.rest = false →
    ∃ d, recover error ⟨limit, mode⟩ c =
        .done ⟨error.message, c.spanTo d⟩ [.recovered error (c.spanTo d)] d ∧
      c < d ∧ d ≤ c.statementEnd
  /-- The placeholder of a statement does so, too. -/
  statementRecovery : ∀ error c, Scan.atLineEnd c.rest = false →
    ∃ statement log, recoverStatement error ⟨limit, mode⟩ c = .done statement log c.statementEnd ∧
      c < c.statementEnd

theorem loopsAdvance (limit : Nat) (mode : Mode) : LoopsAdvance limit mode where
  statements := statements_loop limit mode
  arguments := argumentList_loop limit mode
  values := fun room bracket _ hopen =>
    elements_loop (ValueAt.forward room) (value_reads room) mode bracket hopen
  pairs := fun room bracket _ hopen =>
    elements_loop (fun _ _ _ h => (h.placed (ValueAt.forward room)).forward)
      (pair_reads (ValueAt.forward room) (value_reads room)) mode bracket hopen
  suffixes := suffixes_loop limit mode
  segments := segments_loop limit mode
  bareFragments := bareFragments_loop limit mode
  quotedFragments := quotedFragments_loop limit mode
  recovery := fun _ _ herror hline => recover_advances herror hline
  statementRecovery := fun _ _ hline => recoverStatement_advances hline

end Parser

/-! ### The loops that look ahead -/

namespace Scan

/-- The loops that only look ahead make progress and stay in the text. -/
structure LoopsAdvance : Prop where
  /-- Skipping a malformed chunk. -/
  balancedChunk : Loop balancedTurn fun closers => balancedChunk closers 0
  /-- Runs of a class of characters, such as those of a chunk. -/
  run : ∀ p, Loop (runTurn p) fun _ => run p
  /-- A chunk is empty at the end of the text only, and ends there at the latest. -/
  chunk : ∀ chars, chunk chars ≤ chars.length ∧ (chars ≠ [] → 0 < chunk chars)
  /-- The chunks of broken coordinates after the first. -/
  coordinateRun : Loop (repeatedTurn coordinateStep) fun _ => repeated coordinateStep 0
  /-- Blanks and continuations. -/
  trivia : Loop (repeatedTurn triviaStep) fun _ => trivia
  /-- What is left of a statement. -/
  statement : Loop (repeatedTurn statementStep) fun _ => statement
  /-- The pieces of an interpolated key. -/
  keyPieces : ∀ fuel chars, chars.length ≤ fuel →
    interpolatedKeyPieces fuel chars = interpolatedKeyPieces chars.length chars
  /-- A token takes at least one character, and no more than there are. -/
  token : ∀ lineStart x tail kind n, Token.scan lineStart x tail = .ok (kind, n) →
    0 < n ∧ n ≤ (x :: tail).length
  /-- So more turns than characters give no other tokens. -/
  tokens : ∀ lineStart fuel c, c.rest.length ≤ fuel →
    Token.ofCursor lineStart fuel c = Token.ofCursor lineStart c.rest.length c

theorem loopsAdvance : LoopsAdvance where
  balancedChunk := balancedChunk_loop
  run := run_loop
  chunk := fun chars => ⟨chunk_le_length chars, chunk_pos⟩
  coordinateRun := repeated_loop coordinateStep_le_length
  trivia := repeated_loop triviaStep_le_length
  statement := repeated_loop statementStep_le_length
  keyPieces := fun _ _ h => interpolatedKeyPieces_eq h
  token := fun _ _ _ _ _ h => Token.scan_bounds h
  tokens := fun _ _ _ h => Token.ofCursor_eq h (le_refl _)

end Scan

/-! ### A whole parse -/

/-- A parse ends: all loops make progress, so no promise is broken, the one that no loop runs out
of turns among them. The number of turns at hand does not matter as long as there is one more
than the text has characters. -/
theorem Document.run_advances (mode : Mode) (options : ParseOptions) (text : String) :
    Parser.LoopsAdvance options.maxDepth mode ∧ Scan.LoopsAdvance ∧
      (∀ fault, Document.run mode options text ≠ .broken fault) ∧
      ∀ fuel, text.toList.length < fuel →
        Document.run mode options text =
          (Parser.statements (Parser.arguments options.maxDepth) fuel ⟨options.maxDepth, mode⟩
            (.start text)).andThen fun statements d => .done ⟨statements⟩ [] d := by
  have hloops := Parser.loopsAdvance options.maxDepth mode
  have hrun : Document.run mode options text =
      (Parser.statements (Parser.arguments options.maxDepth) (text.toList.length + 1)
        ⟨options.maxDepth, mode⟩ (.start text)).andThen
          fun statements d => .done ⟨statements⟩ [] d := by
    rw [Document.run, Parser.document_run]
    rfl
  refine ⟨hloops, Scan.loopsAdvance, ?_, ?_⟩
  · intro fault
    obtain ⟨hkeeps, -⟩ := hloops.statements.ends (text.toList.length + 1) () (.start text) trivial
      (Nat.lt_succ_self _)
    have hdone : (Document.run mode options text).Keeps fun _ d => .start text ≤ d := by
      rw [hrun]
      exact hkeeps.andThen fun _ _ hd => hd
    exact hdone.ne_broken fault
  · intro fuel hfuel
    obtain ⟨-, hsame⟩ := hloops.statements.ends fuel () (.start text) trivial hfuel
    rw [hrun, hsame]
    rfl

end Mcfunction
