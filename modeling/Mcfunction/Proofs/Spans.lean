import Mcfunction.Proofs.Modes
import Mcfunction.Proofs.Spans.Outline
import Mcfunction.Proofs.Spans.Spacing

/-!
# Spans Tile the Text

The tree of a tolerant parse accounts for the whole text. Each node covers some text and holds its
parts in order; the statements and the gaps around them follow each other from the start of the
text to its end, and the gaps hold nothing but blanks, line breaks and line continuations. The
arguments of a command are spaced in the same way, by blanks and line continuations alone.

## Main results

* `parseTolerant_tiles`: every text is tiled by the tree of its tolerant parse.
-/

namespace Mcfunction

namespace Span

/-- The gaps before, between and after spans that stand in order between two offsets. -/
def gaps (start stop : Nat) : List Span → List Span
  | [] => [⟨start, stop⟩]
  | span :: spans => ⟨start, span.start⟩ :: gaps span.stop stop spans

/-- The same spans with the gaps around them. -/
def withGaps (start stop : Nat) : List Span → List Span
  | [] => [⟨start, stop⟩]
  | span :: spans => ⟨start, span.start⟩ :: span :: withGaps span.stop stop spans

/-- The texts of several spans, one after the other. -/
theorem mapM_slice?_cons {text piece : String} {pieces : List String} {span : Span}
    {spans : List Span} (h : span.slice? text = some piece)
    (h' : spans.mapM (·.slice? text) = some pieces) :
    (span :: spans).mapM (·.slice? text) = some (piece :: pieces) := by
  rw [List.mapM_cons, h, h']
  rfl

end Span

/-- How the tree of a document accounts for the text. -/
structure Document.Tiles (text : String) (document : Document) : Prop where
  /-- Each node covers text, and the nodes in it stand inside of it, in order and apart. -/
  nested : ∀ statement ∈ document.statements, statement.outline.Nested text
  /-- The statements stand in order and apart. -/
  ordered : document.statements.Pairwise fun statement later =>
    statement.span.stop ≤ later.span.start
  /-- Between the statements stand blanks, line breaks and line continuations only. -/
  filled : ∀ gap ∈ Span.gaps 0 text.utf8ByteSize (document.statements.map Statement.span),
    ∃ piece, gap.slice? text = some piece ∧ Filler true piece.toList
  /-- The text is made of the statements and the gaps. -/
  rebuilt : ∃ pieces,
    (Span.withGaps 0 text.utf8ByteSize (document.statements.map Statement.span)).mapM
      (·.slice? text) = some pieces ∧ String.join pieces = text
  /-- Between the name of a command and its arguments stand blanks and line continuations only,
  and in most places something does. -/
  spaced : ∀ statement ∈ document.statements, ∀ invocation ∈ statement.invocations,
    invocation.Spaced text

theorem Statement.outline_span (statement : Statement) :
    statement.outline.span = statement.span := by
  rcases statement with ⟨name, arguments, span⟩ | ⟨name, arguments, span⟩ | line | node <;> rfl

/-! ### Rows with filler -/

/-- The nodes stand between `c` and `d`, with nothing but filler around them. -/
def Outline.Row : List Outline → Cursor → Cursor → Prop
  | [], c, d => Filled true c d
  | part :: parts, c, d => ∃ a b, Filled true c a ∧ part.At a b ∧ Outline.Row parts b d

namespace Outline.Row

variable {text : String} {c d e : Cursor} {parts : List Outline}

theorem of_filled (hfilled : Filled true c d) (h : Row parts d e) : Row parts c e := by
  cases parts with
  | nil => exact hfilled.trans h
  | cons part parts =>
      obtain ⟨a, b, hda, hpart, hparts⟩ := h
      exact ⟨a, b, hfilled.trans hda, hpart, hparts⟩

theorem allAt (h : Row parts c d) : AllAt parts c d := by
  induction parts generalizing c with
  | nil => exact h.le
  | cons part parts ih =>
      obtain ⟨a, b, hca, hpart, hparts⟩ := h
      exact ⟨a, b, hca.le, hpart, ih hparts⟩

/-- The gaps of a row are filler. -/
theorem gaps (htext : Cursor.start text ≤ c) (h : Row parts c d) :
    ∀ gap ∈ Span.gaps c.offset d.offset (parts.map Outline.span),
      ∃ piece, gap.slice? text = some piece ∧ Filler true piece.toList := by
  induction parts generalizing c with
  | nil =>
      intro gap hgap
      obtain rfl := List.mem_singleton.mp hgap
      exact h.exists_slice? htext
  | cons part parts ih =>
      obtain ⟨a, b, hca, hpart, hparts⟩ := h
      have hb := htext.trans (hca.le.trans hpart.lt.le)
      rw [List.map_cons, Span.gaps, hpart.span_eq]
      exact List.forall_mem_cons.mpr ⟨hca.exists_slice? htext, ih hb hparts⟩

/-- A row and its gaps cover what stands between its ends. -/
theorem withGaps (htext : Cursor.start text ≤ c) (h : Row parts c d) :
    ∃ pieces, (Span.withGaps c.offset d.offset (parts.map Outline.span)).mapM
      (·.slice? text) = some pieces ∧ c.rest = (String.join pieces).toList ++ d.rest := by
  induction parts generalizing c with
  | nil =>
      obtain ⟨chars, -, hrest, hoff⟩ := h
      have hslice := Cursor.slice?_spanTo htext hrest hoff
      refine ⟨[String.ofList chars], ?_, ?_⟩
      · exact Span.mapM_slice?_cons hslice rfl
      · simpa using hrest
  | cons part parts ih =>
      obtain ⟨a, b, ⟨gap, -, hgap, hgapOff⟩, hpart, hparts⟩ := h
      obtain ⟨chars, hchars, hcharsOff⟩ := hpart.lt.le
      have ha : Cursor.start text ≤ a := htext.trans ⟨gap, hgap, hgapOff⟩
      obtain ⟨pieces, hpieces, hrest⟩ := ih (ha.trans hpart.lt.le) hparts
      have hgapSlice := Cursor.slice?_spanTo htext hgap hgapOff
      have hpartSlice := Cursor.slice?_spanTo ha hchars hcharsOff
      refine ⟨String.ofList gap :: String.ofList chars :: pieces, ?_, ?_⟩
      · rw [List.map_cons, Span.withGaps, hpart.span_eq]
        exact Span.mapM_slice?_cons hgapSlice (Span.mapM_slice?_cons hpartSlice hpieces)
      · rw [hgap, hchars, hrest]
        simp

end Outline.Row

/-! ### The statements of a text -/

theorem StatementsAt.row {arguments : Bool → Cursor → List Argument → Cursor → Prop}
    {statements : List Statement} {c : Cursor}
    (hplaced : ∀ inMacro, ArgumentsPlaced (arguments inMacro))
    (houtlined : ∀ inMacro, ArgumentsOutlined (arguments inMacro))
    (h : StatementsAt arguments c statements) :
    ∃ d, d.rest = [] ∧ Outline.Row (statements.map Statement.outline) c d := by
  induction h with
  | @nil c hpeek => exact ⟨c.skipTrivia, List.head?_eq_none_iff.mp hpeek, .skipTrivia c⟩
  | @newline c _ hpeek _ ih =>
      obtain ⟨d, hend, hrow⟩ := ih
      exact ⟨d, hend, hrow.of_filled ((Filled.skipTrivia c).trans (.newline hpeek))⟩
  | @cons c d first _ hline hfirst _ ih =>
      obtain ⟨e, hend, hrow⟩ := ih
      obtain ⟨a, hat, htail⟩ := hfirst.outlined hplaced houtlined c.trivia_skipTrivia hline
      exact ⟨e, hend, c.skipTrivia, a, .skipTrivia c, hat, hrow.of_filled htail.of_false⟩

theorem StatementsAt.spaced {text : String}
    {arguments : Bool → Cursor → List Argument → Cursor → Prop} {statements : List Statement}
    {c : Cursor} (hplaced : ∀ inMacro, ArgumentsPlaced (arguments inMacro))
    (hspaced : ∀ inMacro, ArgumentsSpaced text (arguments inMacro))
    (htext : Cursor.start text ≤ c) (h : StatementsAt arguments c statements) :
    ∀ statement ∈ statements, ∀ invocation ∈ statement.invocations, invocation.Spaced text := by
  induction h with
  | nil => exact List.forall_mem_nil _
  | @newline c _ hpeek _ ih =>
      have hnext : c.skipTrivia ≤ c.skipTrivia.advance 1 :=
        Cursor.le_advance_of_peek hpeek
      exact ih (htext.trans (c.le_skipTrivia.trans hnext))
  | @cons c d first _ hline hfirst _ ih =>
      have hstart := htext.trans c.le_skipTrivia
      have hforward := hfirst.forward hplaced hline
      exact List.forall_mem_cons.mpr
        ⟨hfirst.spaced hspaced hstart, ih (hstart.trans hforward.1.le)⟩

/-- A tolerant parse succeeds, and its tree tiles the text. -/
theorem parseTolerant_tiles (text : String) (options : ParseOptions) :
    ∃ result, Document.parseTolerant text options = .ok result ∧ result.document.Tiles text := by
  obtain ⟨document, log, next, hrun, hstatements⟩ := Document.exists_run_tolerant text options
  have hplaced := ArgumentsAt.argumentsPlaced options.maxDepth
  obtain ⟨d, hend, hrow⟩ := hstatements.row hplaced (ArgumentsAt.outlined options.maxDepth)
  have hspans : document.statements.map Statement.span =
      (document.statements.map Statement.outline).map Outline.span := by
    rw [List.map_map]
    exact List.map_congr_left fun statement _ => statement.outline_span.symm
  have hoffset : d.offset = text.utf8ByteSize := by
    exact Cursor.offset_of_rest_nil hrow.allAt.le hend
  refine ⟨⟨document, diagnosticsOf log⟩, by rw [Document.parseTolerant, hrun], ?_⟩
  constructor
  · exact List.forall_mem_map.mp (hrow.allAt.nested le_rfl)
  · have hpairwise := hrow.allAt.pairwise
    simpa only [List.pairwise_map, Statement.outline_span] using hpairwise
  · rw [hspans, ← hoffset]
    exact hrow.gaps le_rfl
  · obtain ⟨pieces, hpieces, hrest⟩ := hrow.withGaps le_rfl
    refine ⟨pieces, ?_, ?_⟩
    · rw [hspans, ← hoffset]
      exact hpieces
    · rw [hend, List.append_nil] at hrest
      exact String.toList_injective hrest.symm
  · exact hstatements.spaced hplaced (ArgumentsAt.spaced text options.maxDepth) le_rfl

/-- A quote right after a keyword: nothing stands between the keyword and what follows it, although
that starts with neither a bracket nor a brace, and the keyword is no placeholder. -/
theorem say_quote_touches : ∃ result, Document.parseTolerant "say a\"b\"" {} = .ok result ∧
    ∃ statement ∈ result.document.statements, ∃ invocation ∈ statement.invocations,
      ∃ first second, invocation.arguments = [first, second] ∧
        first.span.stop = second.span.start ∧ Parser.isPlaceholder first = false ∧
        ¬ second.span.StartsContainer "say a\"b\"" := by
  have harguments : (Document.parseTolerant "say a\"b\"" {}).map (·.document.statements.map
      (·.invocations.map (·.arguments.map fun argument =>
        (argument.span, Parser.isPlaceholder argument)))) =
      .ok [[[(⟨4, 5⟩, false), (⟨5, 8⟩, true)]]] := by decide +kernel
  obtain ⟨document, log, next, hrun, -⟩ := Document.exists_run_tolerant "say a\"b\"" {}
  have hresult : Document.parseTolerant "say a\"b\"" {} = .ok ⟨document, diagnosticsOf log⟩ := by
    rw [Document.parseTolerant, hrun]
  rw [hresult] at harguments
  obtain ⟨statement, hstatement, hinvocations⟩ :=
    List.map_eq_singleton_iff.mp (Except.ok.inj harguments)
  obtain ⟨invocation, hinvocation, hpair⟩ := List.map_eq_singleton_iff.mp hinvocations
  obtain ⟨first, tail, hsplit, hfirst, htail⟩ := List.map_eq_cons_iff.mp hpair
  obtain ⟨second, rfl, hsecond⟩ := List.map_eq_singleton_iff.mp htail
  obtain ⟨hfirstSpan, hfirstPlain⟩ := Prod.mk.inj hfirst
  obtain ⟨hsecondSpan, -⟩ := Prod.mk.inj hsecond
  have hmem : statement ∈ document.statements := by
    rw [show document.statements = [statement] from hstatement]
    exact List.mem_singleton_self _
  have hmem' : invocation ∈ statement.invocations := by
    rw [hinvocation]
    exact List.mem_singleton_self _
  refine ⟨_, hresult, statement, hmem, invocation, hmem', first, second, hsplit, ?_, hfirstPlain,
    ?_⟩
  · rw [hfirstSpan, hsecondSpan]
  · rintro ⟨piece, hslice, hpiece⟩
    have hquote : (Span.mk 5 8).slice? "say a\"b\"" = some "\"b\"" :=
      Span.slice?_append "say a" "\"b\"" ""
    rw [hsecondSpan, hquote] at hslice
    cases hslice
    revert hpiece
    decide +kernel

end Mcfunction
