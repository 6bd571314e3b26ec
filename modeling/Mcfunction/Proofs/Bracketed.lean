import Mcfunction.Proofs.Bracketed.Covered

/-!
# Recovery Skips Well-Bracketed Text Exactly

A container that cannot be read leaves a placeholder over just its text, from the opening bracket
to the bracket that closes it, and the parse goes on right behind. The parser and recovery scan
the text in different ways, and an error in a container may stand at any depth of it, behind other
placeholders; but no error reaches over the bracket that closes the container, so the placeholder
is not extended, and recovery finds that bracket because it skips strings and continuations whole.

The text between the brackets may hold containers, complete strings, whole continuations and any
characters but brackets, quotes, backslashes and line breaks. It must not hold `$(`: an
interpolation would be taken with the brackets in it.

## Main results

* `Document.run_skips_enclosed`: of every parse, at every place and with every number of levels
  left.
-/

namespace Mcfunction

/-! ### Statements -/

namespace Parser

variable {text c : Cursor} {limit : Nat}

theorem anyStatement_covers {arguments : Bool → Parser (List Argument)}
    (harguments : ∀ inMacro c, text ≤ c → Covers limit text c (arguments inMacro)) (h : text ≤ c) :
    Covers limit text c (anyStatement arguments) := by
  have hstatement : Covers limit text c (statement arguments) := by
    rw [statement, covers_here_bind]
    split
    · have htag := (Scan.inline_commentTag c.rest).le_length
      have hbody := (Scan.commentText_le_statement
        (c.advance (Scan.commentTag c.rest).1).rest).trans (Scan.statement_le_length _)
      refine (covers_bind_iff comment_run).mpr (.pure ?_)
      rw [← Cursor.advance_rest]
      exact h.trans ((Cursor.le_advance htag).trans (Cursor.le_advance hbody))
    · rename_i hpeek
      rw [macroStatement, covers_here_bind]
      refine (macroCommand_covers harguments h hpeek).bind fun command d hd => ?_
      refine .still_bind (.slice _ _ _) fun chars => ?_
      split
      · exact .log_bind trivial (.pure hd)
      · exact .pure hd
    · split
      · exact (command_covers harguments h).bind fun _ _ hd => .pure hd
      · exact .failAt
    · exact .failAt
  have hrecover : ∀ error, Covers limit text c (recoverStatement error) := by
    intro error
    rw [Covers, recoverStatement_run]
    exact ⟨h.trans c.le_statementEnd, List.forall_mem_singleton.mpr trivial⟩
  rw [anyStatement, covers_here_bind]
  refine (hstatement.orElse fun {error log} _ => ?_).bind fun statement d hd => ?_
  · rw [covers_bind_iff settings_run]
    exact hrecover error
  · exact .log_bind trivial (.pure hd)

theorem statements_covers {arguments : Bool → Parser (List Argument)} {fuel : Nat}
    (harguments : ∀ inMacro c, text ≤ c → Covers limit text c (arguments inMacro)) (h : text ≤ c) :
    Covers limit text c (statements arguments fuel) := by
  induction fuel generalizing c with
  | zero => exact .breakOff
  | succ fuel ih =>
      have h := h.trans c.le_skipTrivia
      rw [statements, covers_skipTrivia_bind, covers_here_bind]
      split
      · exact .pure h
      · rename_i hpeek
        rw [covers_take_bind (Cursor.length_pos_of_peek hpeek)]
        exact ih (h.trans (Cursor.le_advance_of_peek hpeek))
      · exact (anyStatement_covers harguments h).bind fun _ _ hd => (ih hd).bind
          fun _ _ he => .pure he

end Parser

/-- Every placeholder of a parse that starts where a container or a selector with one does covers
just that text. -/
theorem Document.run_covers (options : ParseOptions) (text : String) :
    (run .tolerant options text).Covers (.start text) := by
  have hstatements : Parser.Covers options.maxDepth (.start text) (.start text)
      (Parser.statements (Parser.arguments options.maxDepth)
        ((Cursor.start text).rest.length + 1)) :=
    Parser.statements_covers (fun inMacro _ => Parser.arguments_covers _ inMacro) le_rfl
  rw [run, Parser.document_run]
  exact hstatements.bind fun _ _ hd => .pure hd

/-! ### Every place -/

/-- What the tolerant parse does where a container or a selector with one stands that cannot be
read, and any text after it: the placeholder that is left there covers just that text, and the
parse goes on right behind. -/
structure Parser.SkipsEnclosed (limit : Nat) : Prop where
  /-- In value position, with any number of levels left. -/
  value : ∀ {room : Nat} {c : Cursor} {enclosed after : List Char} {bracket : Bracket}
    {error : ParseError} {log : List Event}, Scan.Bracketed enclosed →
    ¬ ['$', '('] <:+: enclosed → c.rest = enclosed ++ after → c.peek = some bracket.opener →
    containerValue room bracket ⟨limit, .tolerant⟩ c = .failed error log →
    Parser.value room ⟨limit, .tolerant⟩ c =
      .done (.error ⟨error.message, c.spanTo (c.advance enclosed.length)⟩)
        (log ++ [.recovered error (c.spanTo (c.advance enclosed.length))])
        (c.advance enclosed.length)
  /-- Among the arguments of a command, of which the next one starts behind the trivia at `gap`.
  A selector must not be glued to the argument before it. The arguments that follow are those that
  stand behind that text. -/
  argument : ∀ {room : Nat} {inMacro afterError : Bool} {gap : Cursor} {fuel : Nat}
    {enclosed after : List Char} {error : ParseError} {log : List Event},
    Scan.Enclosed enclosed → ¬ ['$', '('] <:+: enclosed →
    gap.skipTrivia.rest = enclosed ++ after →
    (gap.skipTrivia.peek = some '@' → glued gap afterError = false) → gap.rest.length < fuel →
    argumentWithin room inMacro ⟨limit, .tolerant⟩ gap.skipTrivia = .failed error log →
    ∃ more later d,
      argumentList (argumentWithin room inMacro) true fuel ⟨limit, .tolerant⟩
        (gap.skipTrivia.advance enclosed.length) = .done more later d ∧
      argumentList (argumentWithin room inMacro) afterError fuel ⟨limit, .tolerant⟩ gap =
        .done
          (.error ⟨error.message,
            gap.skipTrivia.spanTo (gap.skipTrivia.advance enclosed.length)⟩ :: more)
          (log ++ .recovered error
            (gap.skipTrivia.spanTo (gap.skipTrivia.advance enclosed.length)) :: later) d

theorem Parser.skipsEnclosed (limit : Nat) : Parser.SkipsEnclosed limit where
  value := by
    intro room c enclosed after bracket error log henclosed hnone hrest hpeek hrun
    obtain ⟨bracket', hopens⟩ := Opens.of_bracketed henclosed hnone hrest
    exact value_run_of_failed ((Encloses.container hopens).opens hpeek) hrun
  argument := by
    intro room inMacro afterError gap fuel enclosed after error log henclosed hnone hrest hglued
      hfuel hrun
    have hencloses := Encloses.of_enclosed henclosed hnone hrest
    refine argumentList_run_of_failed hencloses ?_ hfuel hrun
    cases hencloses with
    | container hopens => exact glued_of_opens hopens
    | selector hat => exact hglued hat

/-- Recovery skips well-bracketed text exactly, at every place of a parse. In a whole parse every
placeholder that starts where such text does covers just that text, unless it stands for a
selector that was not read because it is glued to the argument before it. -/
theorem Document.run_skips_enclosed (options : ParseOptions) (text : String) :
    Parser.SkipsEnclosed options.maxDepth ∧
      ∃ document log next, Document.run .tolerant options text = .done document log next ∧
        ∀ error skipped, .recovered error skipped ∈ log → ∀ before enclosed after,
          text.toList = before ++ enclosed ++ after → skipped.start = byteWidth before →
          Scan.Enclosed enclosed → ¬ ['$', '('] <:+: enclosed →
          (enclosed.head? = some '@' → error.cause ≠ .missingSeparator) →
          skipped.stop = byteWidth (before ++ enclosed) := by
  refine ⟨Parser.skipsEnclosed options.maxDepth, ?_⟩
  obtain ⟨document, log, next, hrun, -⟩ := exists_run_tolerant text options
  have hcovers := run_covers options text
  rw [hrun] at hcovers
  refine ⟨document, log, next, hrun, ?_⟩
  intro error skipped hmem before enclosed after htext hstart henclosed hnone hcause
  -- the place where the text stands
  obtain ⟨c, hc, hrest, hoffset⟩ : ∃ c, Cursor.start text ≤ c ∧ c.rest = enclosed ++ after ∧
      c.offset = byteWidth before := by
    refine ⟨⟨byteWidth before, enclosed ++ after⟩, ⟨before, ?_, ?_⟩, rfl, rfl⟩
    · rw [Cursor.start, htext, List.append_assoc]
    · exact (Nat.zero_add _).symm
  have hhead : c.peek = some '@' → error.cause ≠ .missingSeparator := by
    rw [Cursor.peek, hrest, henclosed.head?_append]
    exact hcause
  rw [hcovers.2 _ hmem c _ hc (hoffset.trans hstart.symm)
    (.of_enclosed henclosed hnone hrest) hhead]
  show (c.advance enclosed.length).offset = byteWidth (before ++ enclosed)
  have hlen : enclosed.length ≤ c.rest.length := by
    rw [hrest, List.length_append]
    exact Nat.le_add_right _ _
  rw [Cursor.advance_offset hlen, hoffset, hrest, List.take_left, byteWidth_append]

/-- The comma is missing in the list, and the word behind it is read. -/
theorem Document.run_skips_enclosed_words :
    ∃ error more later d,
      Parser.argumentWithin 1 false ⟨1, .tolerant⟩ ⟨4, "[a b] c".toList⟩ = .failed error [] ∧
      Parser.argumentList (Parser.argumentWithin 1 false) true 9 ⟨1, .tolerant⟩
        ⟨9, " c".toList⟩ = .done more later d ∧
      Parser.argumentList (Parser.argumentWithin 1 false) false 9 ⟨1, .tolerant⟩
        ⟨3, " [a b] c".toList⟩ =
          .done (.error ⟨error.message, ⟨4, 9⟩⟩ :: more) (.recovered error ⟨4, 9⟩ :: later) d := by
  have hrun : Parser.argumentWithin 1 false ⟨1, .tolerant⟩ ⟨4, "[a b] c".toList⟩ =
      .failed ⟨.missingComma, ⟨7, 8⟩⟩ [] := by
    rfl
  have henclosed : Scan.Enclosed "[a b]".toList :=
    .container (@Scan.Bracketed.mk .square ['a', ' ', 'b']
      (.plain rfl (.plain rfl (.plain rfl .nil))))
  have hgap : (Cursor.mk 3 " [a b] c".toList).skipTrivia = ⟨4, "[a b] c".toList⟩ := by
    decide +kernel
  have hstop : (Cursor.mk 4 "[a b] c".toList).advance "[a b]".toList.length =
      ⟨9, " c".toList⟩ := by
    decide +kernel
  have hglued : (Cursor.mk 3 " [a b] c".toList).skipTrivia.peek = some '@' →
      Parser.glued ⟨3, " [a b] c".toList⟩ false = false := by
    rw [hgap]
    decide +kernel
  have hrest : (Cursor.mk 3 " [a b] c".toList).skipTrivia.rest =
      "[a b]".toList ++ " c".toList := by
    rw [hgap]
    decide +kernel
  obtain ⟨more, later, d, hmore, harguments⟩ :=
    (run_skips_enclosed ⟨1⟩ "say [a b] c").1.argument henclosed (by decide +kernel) hrest hglued
      (by decide +kernel : _ < 9) (hgap ▸ hrun)
  rw [hgap, hstop] at hmore harguments
  exact ⟨_, more, later, d, hrun, hmore, harguments⟩

end Mcfunction
