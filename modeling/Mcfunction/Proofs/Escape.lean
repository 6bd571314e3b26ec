import Mcfunction.Proofs.Modes
import Mcfunction.Proofs.Reading.Nodes
import Mcfunction.Proofs.Written
import Mcfunction.Tree.Escape

/-!
# Strings and Their Escapes

Text is read in two ways: the recognizer of strings looks for the closing quote, and resolving
the escapes of its value looks for what they stand for. Both take a backslash together with the
character after it, so both cut the text between two quotes into the same pieces. From that it
follows that escaped text is read back, and that the value of no string ends with a backslash
that escapes nothing.

## Main results

* `Parser.parses_escaped`: an escaped text between quotes is read as one argument.
* `Document.strings_paired`: the backslashes of every string of a document are paired.
* `Document.strings_unescape`: both together, for the parses of whole texts.
-/

namespace Mcfunction

/-! ### Pieces -/

namespace Piece

variable {quote : Char}

theorem unescapeChars_append (piece : Piece) (chars : List Char) :
    unescapeChars (piece.written ++ chars) = piece.meaning :: unescapeChars chars := by
  cases piece with
  | plain c hslash => simp [written, meaning, unescapeChars, hslash]
  | escape c =>
      by_cases hline : c = 'n'
      · subst hline
        rfl
      by_cases htab : c = 't'
      · subst htab
        rfl
      by_cases hreturn : c = 'r'
      · subst hreturn
        rfl
      simp [written, meaning, unescapeChars]

/-- Resolving the escapes of a text gives what its pieces stand for. -/
theorem unescapeChars_written (pieces : List Piece) :
    unescapeChars (pieces.flatMap written) = pieces.map meaning := by
  induction pieces with
  | nil => rfl
  | cons piece pieces ih => rw [List.flatMap_cons, unescapeChars_append, ih, List.map_cons]

/-- The piece that writes a character stands for it. -/
theorem meaning_ofChar (hquote : quote = '"' ∨ quote = '\'') (c : Char) :
    (ofChar quote c).meaning = c := by
  unfold ofChar
  split
  · rename_i h
    rcases hquote with rfl | rfl
    · rcases h with rfl | rfl | rfl <;> rfl
    · rcases h with rfl | rfl | rfl <;> rfl
  · split_ifs with hline hreturn htab
    · exact hline.symm
    · exact hreturn.symm
    · exact htab.symm
    · rfl

/-- The backslashes at the end of a text that is made of pieces come in pairs. -/
theorem even_rtakeWhile (pieces : List Piece) :
    Even ((pieces.flatMap written).rtakeWhile (· == '\\')).length := by
  induction pieces using List.reverseRecOn with
  | nil => exact ⟨0, rfl⟩
  | append_singleton pieces piece ih =>
      rw [List.flatMap_append, List.flatMap_singleton]
      cases piece with
      | plain c hslash =>
          rw [written, List.rtakeWhile_concat, if_neg (by simpa using hslash)]
          exact ⟨0, rfl⟩
      | escape c =>
          have hconcat : pieces.flatMap written ++ ['\\', c] =
              pieces.flatMap written ++ ['\\'] ++ [c] := by simp
          rw [written, hconcat, List.rtakeWhile_concat]
          by_cases hc : c = '\\'
          · rw [if_pos (by simpa using hc), List.rtakeWhile_concat_pos _ _ _ (by simp)]
            obtain ⟨half, hhalf⟩ := ih
            refine ⟨half + 1, ?_⟩
            rw [List.length_append, List.length_append, hhalf]
            simp only [List.length_singleton]
            omega
          · rw [if_neg (by simpa using hc)]
            exact ⟨0, rfl⟩

end Piece

section

variable {quote : Char}

theorem escapeChars_eq (chars : List Char) :
    escapeChars quote chars = (chars.map (Piece.ofChar quote)).flatMap Piece.written := by
  rw [escapeChars, List.flatMap_map]

/-- Resolving the escapes of an escaped text gives the text. -/
theorem unescapeChars_escapeChars (hquote : quote = '"' ∨ quote = '\'') (chars : List Char) :
    unescapeChars (escapeChars quote chars) = chars := by
  rw [escapeChars_eq, Piece.unescapeChars_written, List.map_map]
  exact (List.map_congr_left fun c _ => Piece.meaning_ofChar hquote c).trans (List.map_id chars)

/-- An escaped text may stand between quotes. -/
theorem quotedBody_escapeChars (hquote : quote = '"' ∨ quote = '\'') (chars : List Char) :
    QuotedBody quote (escapeChars quote chars) := by
  induction chars with
  | nil => exact .nil
  | cons c chars ih =>
      rw [escapeChars, List.flatMap_cons]
      unfold Piece.ofChar
      split_ifs with hspecial hline hreturn htab
      · have hline : c ≠ '\n' := by
          rintro rfl
          rcases hquote with rfl | rfl <;> simp at hspecial
        exact .escape hline ih
      · exact .escape (by decide) ih
      · exact .escape (by decide) ih
      · exact .escape (by decide) ih
      · simp only [not_or] at hspecial
        exact .plain hspecial.2.1 hspecial.1 hspecial.2.2 hline ih

end

/-! ### What the recognizer finds between quotes -/

namespace Scan

variable {chars : List Char}

/-- The text up to the closing quote of a string without interpolations is made of pieces. -/
theorem quotedFrom_pieces {closes : Char → Bool} {before pending : Nat} {interpolated : Bool}
    {q : Quoted} (h : quotedFrom closes before interpolated pending chars = .ok q)
    (hnone : q.interpolated = false) :
    interpolated = false ∧ ∃ (pieces : List Piece) (tail : List Char),
      chars.drop pending = pieces.flatMap Piece.written ++ tail ∧
      q.before = before + pending + (pieces.flatMap Piece.written).length := by
  fun_induction quotedFrom closes before interpolated pending chars with
  | case1 | case3 | case4 | case5 | case6 | case8 => cases h
  | case2 before interpolated pending c chars ih =>
      obtain ⟨hflag, pieces, tail, hdrop, hbefore⟩ := ih h
      exact ⟨hflag, pieces, tail, hdrop, by omega⟩
  | case7 before interpolated c chars hne hslash hnil hline hreturn ih =>
      obtain ⟨d, chars, rfl⟩ := List.exists_cons_of_ne_nil hnil
      obtain ⟨hflag, pieces, tail, hdrop, hbefore⟩ := ih h
      obtain rfl : c = '\\' := by simpa using hslash
      refine ⟨hflag, .escape d :: pieces, tail, ?_, ?_⟩
      · simpa [Piece.written] using hdrop
      · rw [hbefore, List.flatMap_cons, Piece.written, List.length_append]
        simp only [List.length_cons, List.length_nil]
        omega
  | case9 before interpolated c chars hne _ hstart count hcount ih =>
      -- an interpolation raises the flag for good
      exact absurd (ih h).1 (by decide)
  | case10 before interpolated c chars =>
      cases h
      exact ⟨hnone, [], c :: chars, rfl, rfl⟩
  | case11 before interpolated c chars hne hslash _ _ ih =>
      obtain ⟨hflag, pieces, tail, hdrop, hbefore⟩ := ih h
      refine ⟨hflag, .plain c (by simpa using hslash) :: pieces, tail, ?_, ?_⟩
      · simpa [Piece.written] using hdrop
      · rw [hbefore, List.flatMap_cons, Piece.written, List.length_append]
        simp only [List.length_cons, List.length_nil]
        omega

end Scan

theorem StringLiteral.Paired.of_pieces {literal : StringLiteral} {pieces : List Piece}
    (h : literal.value.toList = pieces.flatMap Piece.written) : literal.Paired where
  exists_pieces := by
    refine ⟨pieces, h, ?_⟩
    rw [StringLiteral.unescaped, String.toList_ofList, h, Piece.unescapeChars_written]
  even_backslashes := h ▸ Piece.even_rtakeWhile pieces

variable {origin c : Cursor}

/-- The backslashes of a quoted string without interpolations are paired. -/
theorem Cursor.quotedString_paired {q : Scan.Quoted} (hstart : Scan.startsQuoted c.rest)
    (hok : Scan.quoted c.rest = .ok q) (hnone : q.interpolated = false) :
    (c.quotedString q).Paired := by
  obtain ⟨quote, body, hrest⟩ : ∃ quote body, c.rest = quote :: body := by
    obtain ⟨body, hrest | hrest⟩ := Scan.startsQuoted_iff.mp hstart
    · exact ⟨_, _, hrest⟩
    · exact ⟨_, _, hrest⟩
  rw [hrest, Scan.quoted] at hok
  obtain ⟨-, pieces, tail, hbody, hbefore⟩ := Scan.quotedFrom_pieces hok hnone
  have hcount : q.before - 1 = (pieces.flatMap Piece.written).length := by omega
  rw [List.drop_zero] at hbody
  refine @StringLiteral.Paired.of_pieces _ pieces ?_
  rw [Cursor.quotedString, Cursor.textBetween, String.toList_ofList, hrest, List.drop_succ_cons,
    List.drop_zero, hcount, hbody, List.take_left]

/-- A string that was read between quotes. -/
theorem Node.ReadFrom.paired {literal : StringLiteral} (h : (Node.string literal).ReadFrom origin)
    (hquote : literal.quote ≠ .bare) : literal.Paired := by
  obtain ⟨c, -, ⟨q, hstart, hok, hnone, rfl⟩ | ⟨n, -, rfl⟩⟩ := h
  · exact Cursor.quotedString_paired hstart hok hnone
  · exact absurd rfl hquote

/-- The backslashes of all strings in quotes are paired. -/
def Document.Paired (document : Document) : Prop :=
  ∀ literal, .string literal ∈ document.nodes → literal.quote ≠ .bare → literal.Paired

/-- Both parses of a text give documents in which the backslashes of strings are paired. -/
theorem Document.strings_paired (text : String) (options : ParseOptions) :
    (∃ result, Document.parseTolerant text options = .ok result ∧ result.document.Paired) ∧
    ∀ document, Document.parse text options = .ok (.ok document) → document.Paired := by
  obtain ⟨document, log, next, hrun, hstatements, hstrict⟩ := Document.exists_parses text options
  have hpaired : document.Paired := fun literal hmem hquote =>
    (hstatements.nodes_readFrom le_rfl (.string literal) hmem).paired hquote
  refine ⟨⟨⟨document, diagnosticsOf log⟩, by rw [Document.parseTolerant, hrun], hpaired⟩, ?_⟩
  intro other hother
  rcases hstrict with ⟨hstrict, -⟩ | ⟨error, hstrict, -⟩
  · obtain rfl := Except.ok.inj (Except.ok.inj (hstrict.symm.trans hother))
    exact hpaired
  · cases Except.ok.inj (hstrict.symm.trans hother)

/-! ### Reading an escaped text -/

namespace Parser

variable {s : Settings} {room : Nat}

/-- A quoted string at the end of the text is an argument. -/
theorem argument_string {literal : StringLiteral} (h : literal.Quoted)
    (hrest : c.rest = literal.written) :
    ∃ found : StringLiteral, found.unplaced = literal.unplaced ∧ ∀ inside run inMacro,
      argument inside run inMacro s c =
        .done (.string found) [] (c.advance literal.written.length) := by
  have hrest' : c.rest = literal.written ++ [] := hrest.trans (List.append_nil _).symm
  obtain ⟨found, hrun, hfound⟩ := quotedString_parses h s c [] hrest' trivial
  refine ⟨found, hfound, fun inside run inMacro => ?_⟩
  have hplain : Scan.startsInterpolated false c.rest = false :=
    hrest' ▸ h.startsInterpolated false []
  have hend : (c.advance literal.written.length).rest = [] := by
    rw [Cursor.advance_rest_of_append hrest']
  have hstring : stringOrPath inside s c =
      .done (.string found) [] (c.advance literal.written.length) := by
    rw [stringOrPath, bind_done hrun, bind_done here_run, hend]
    rfl
  rw [argument, bind_done here_run, hplain, if_neg Bool.false_ne_true]
  obtain ⟨body, hbody | hbody⟩ := Scan.startsQuoted_iff.mp (hrest' ▸ h.startsQuoted [])
  · rw [Cursor.peek_of_cons hbody]
    exact hstring
  · rw [Cursor.peek_of_cons hbody]
    exact hstring

end Parser

/-- A string that writes a text with its escapes, between quotes. -/
def StringLiteral.escaping (quote : Quote) (mark : Char) (text : String) : StringLiteral :=
  ⟨String.ofList (escapeChars mark text.toList), quote, .nowhere⟩

section

variable {quote : Quote} {mark : Char} {name text : String}

theorem StringLiteral.escaping_quoted (hmark : quote.char? = some mark) (text : String) :
    (escaping quote mark text).Quoted := by
  refine ⟨mark, hmark, ?_⟩
  rw [escaping, String.toList_ofList]
  exact quotedBody_escapeChars (Quote.mark_cases hmark) text.toList

theorem StringLiteral.escaping_unescaped (hmark : quote.char? = some mark) (text : String) :
    (escaping quote mark text).unescaped = text := by
  rw [unescaped, escaping, String.toList_ofList,
    unescapeChars_escapeChars (Quote.mark_cases hmark), String.ofList_toList]

theorem StringLiteral.escaping_written (hmark : quote.char? = some mark) (text : String) :
    (escaping quote mark text).written = mark :: (escapeChars mark text.toList ++ [mark]) := by
  simp [escaping, written, hmark]

/-- The name of a command ends at a character that is none of a name. -/
theorem Scan.commandName_append_cons {chars tail : List Char} {x : Char} {n : Nat}
    (hx : isNameChar x = false) (h : commandName chars = some n) :
    commandName (chars ++ x :: tail) = some n := by
  rcases chars with _ | ⟨c, chars⟩
  · cases h
  · rw [commandName] at h
    rw [List.cons_append, commandName, run_append_cons hx, h]

/-- The strict parse of the name of a command, a blank and an escaped text between quotes gives
that command with one argument, which is a string with these quotes and the text as its value. -/
theorem parse_escaped (hmark : quote.char? = some mark)
    (hname : Scan.commandName name.toList = some name.toList.length) (text : String)
    (options : ParseOptions) : ∃ (command : Command) (literal : StringLiteral),
      Document.parse
          (name ++ " " ++ String.ofList (mark :: (escapeChars mark text.toList ++ [mark])))
          options =
        .ok (.ok ⟨[.command command]⟩) ∧
      command.name.text = name ∧ command.arguments = [.string literal] ∧
      literal.quote = quote ∧ literal.unescaped = text := by
  have hquoted := StringLiteral.escaping_quoted hmark text
  rw [← StringLiteral.escaping_written hmark text]
  generalize hliteral : StringLiteral.escaping quote mark text = literal at hquoted
  generalize hsource : name ++ " " ++ String.ofList literal.written = source
  obtain ⟨x, tail, hletter, hlower⟩ := Scan.exists_of_commandName hname
  obtain ⟨y, after, hafter⟩ : ∃ y after, tail ++ ' ' :: literal.written = y :: after := by
    cases tail <;> exact ⟨_, _, rfl⟩
  -- the text and what stands at its front, after the name, and at its end
  have hrest : (Cursor.start source).rest = name.toList ++ ' ' :: literal.written := by
    simp [Cursor.start, ← hsource]
  have hfront : (Cursor.start source).rest = x :: y :: after := by
    rw [hrest, hletter, List.cons_append, hafter]
  have hcommandName : Scan.commandName (Cursor.start source).rest = some name.toList.length := by
    rw [hrest]
    exact Scan.commandName_append_cons (by decide) hname
  have hblank : ((Cursor.start source).advance name.toList.length).rest = ' ' :: literal.written :=
    Cursor.advance_rest_of_append hrest
  have hend : ((((Cursor.start source).advance name.toList.length).advance 1).advance
      literal.written.length).rest = [] := by
    rw [Cursor.advance_rest, Cursor.advance_one_of_cons hblank, List.drop_length]
  obtain ⟨found, hfound, hargument⟩ := Parser.argument_string
    (s := ⟨options.maxDepth, .strict⟩) hquoted (Cursor.advance_one_of_cons hblank)
  have harguments := @Parser.arguments_single _ _ options.maxDepth false _ _ hblank
    hquoted.startsElement fun run => hargument _ run false
  obtain ⟨span, hcommand⟩ := Parser.command_single hcommandName harguments
  obtain ⟨log, hrun⟩ := Parser.document_command hfront hlower hcommand hend
  have hvalue : found.value = literal.value ∧ found.quote = literal.quote := by
    simpa [StringLiteral.unplaced] using hfound
  refine ⟨_, found, by rw [Document.parse, Document.run, hrun], ?_, rfl, ?_, ?_⟩
  · exact Cursor.textBetween_of_append hrest
  · rw [hvalue.2, ← hliteral]
    rfl
  · rw [StringLiteral.unescaped, hvalue.1, ← StringLiteral.unescaped, ← hliteral,
      StringLiteral.escaping_unescaped hmark]

end

/-- **Strings and their escapes.** Every text can be written as the only argument of a command,
between quotes of either kind, and is read back by resolving the escapes of that argument. In
both parses of any text, resolving the escapes of a string in quotes takes its backslashes in
pairs with the characters after them. -/
theorem Document.strings_unescape (options : ParseOptions) :
    (∀ quote mark, Quote.char? quote = some mark → ∀ name : String,
      Scan.commandName name.toList = some name.toList.length → ∀ text : String,
      ∃ (command : Command) (literal : StringLiteral),
        Document.parse
            (name ++ " " ++ String.ofList (mark :: (escapeChars mark text.toList ++ [mark])))
            options =
          .ok (.ok ⟨[.command command]⟩) ∧
        command.name.text = name ∧ command.arguments = [.string literal] ∧
        literal.quote = quote ∧ literal.unescaped = text) ∧
    ∀ source, (∃ result, Document.parseTolerant source options = .ok result ∧
        result.document.Paired) ∧
      ∀ document, Document.parse source options = .ok (.ok document) → document.Paired :=
  ⟨fun _ _ hmark _ hname text => parse_escaped hmark hname text options,
    fun source => Document.strings_paired source options⟩

/-- A text of a quote, a backslash, an interpolation and a line break, as the argument of `say`;
and a document with that string in it. -/
theorem Document.strings_unescape_say :
    (∃ (command : Command) (literal : StringLiteral),
      Document.parse "say \"\\\"\\\\\\$(a)\\n\"" ⟨0⟩ = .ok (.ok ⟨[.command command]⟩) ∧
      command.name.text = "say" ∧ command.arguments = [.string literal] ∧
      literal.quote = .double ∧ literal.unescaped = "\"\\$(a)\n") ∧
    ∃ document, Document.parse "say \"\\\"\\\\\\$(a)\\n\"" ⟨0⟩ = .ok (.ok document) ∧
      document.Paired := by
  obtain ⟨hescaped, hpaired⟩ := Document.strings_unescape ⟨0⟩
  obtain ⟨command, literal, hparse, h⟩ := hescaped .double '"' rfl "say" (by decide) "\"\\$(a)\n"
  have hsource : "say" ++ " " ++
      String.ofList ('"' :: (escapeChars '"' "\"\\$(a)\n".toList ++ ['"'])) =
      "say \"\\\"\\\\\\$(a)\\n\"" := by
    decide
  rw [hsource] at hparse
  exact ⟨⟨command, literal, hparse, h⟩, _, hparse, (hpaired _).2 _ hparse⟩

end Mcfunction
