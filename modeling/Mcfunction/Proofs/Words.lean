import Mcfunction.Proofs.Words.Argument

/-!
# Commands of Plain Words

A command line of which every argument is a plain word is read from the left: three numerals are
coordinates, another numeral is a number, `true` and `false` are truth values, a `run` takes all
that follows as a command of its own, and any other word is a keyword. Such a line is always
read, if the limit admits as many run clauses as there are words `run`.

## Main results

* `exists_argument`: one argument is read from the front of a row of words.
* `arguments_words`: all of them are, run clause inside run clause.
* `parse_words`: the strict parse of a line of words.
-/

namespace Mcfunction

/-- The place at the end of the text. -/
theorem Cursor.offset_of_rest_eq_nil {c d : Cursor} (h : c ≤ d) (hd : d.rest = []) :
    d.offset = c.offset + byteWidth c.rest := by
  obtain ⟨chars, hrest, hoffset⟩ := h
  rw [hoffset, hrest, hd, List.append_nil]

namespace Parser

/-- The parser reads the rows of words with at most so many `run`s to the end. -/
def ParsesWords (room : Nat) (parser : Parser (List Argument)) : Prop :=
  ∀ {s : Settings} {c : Cursor} {words : List String}, PlainWords words →
    words.count "run" ≤ room → c.rest = spaced words →
    ∃ arguments d, WordsAt c.offset words arguments ∧ c ≤ d ∧ d.rest = [] ∧
      parser s c = .done arguments [] d

/-- The parser of what follows a `run` reads the rows of words with at most so many `run`s to
the end. -/
def ParsesRuns (room : Nat) (run : Cursor → Parser RunClause) : Prop :=
  ∀ {s : Settings} {start c : Cursor} {name : String} {words : List String}, start ≤ c →
    PlainWords ("run" :: name :: words) → ("run" :: name :: words).count "run" ≤ room →
    StartsLower name → c.rest = spaced (name :: words) →
    ∃ arguments d, WordsAt (wordSpan c.offset name).stop words arguments ∧ c ≤ d ∧ d.rest = [] ∧
      run start s c = .done ⟨.command ⟨⟨name, wordSpan c.offset name⟩, arguments,
        c.offset + 1, d.offset⟩, start.offset, d.offset⟩ [] d

variable {s : Settings} {c : Cursor} {room : Nat} {inside : Containers}
  {run : Cursor → Parser RunClause} {inMacro : Bool} {word : String} {words : List String}

/-! ### One argument -/

/-- The place behind a word. -/
theorem exists_word_end (hrest : c.rest = spaced (word :: words)) :
    ((c.advance 1).advance word.toList.length).rest = spaced words ∧
      c ≤ (c.advance 1).advance word.toList.length := by
  have hword : (c.advance 1).rest = word.toList ++ spaced words :=
    Cursor.advance_one_of_cons hrest
  refine ⟨Cursor.advance_rest_of_append hword, ?_⟩
  exact (Cursor.le_advance_of_peek (Cursor.peek_of_cons hrest)).trans
    (Cursor.le_advance (Cursor.length_le_of_append hword))

/-- What is read as the argument at the front of a row of words, and what is left of the row. -/
structure FirstArgument (c : Cursor) (word : String) (words : List String) (value : Argument)
    (rest : List String) (d : Cursor) : Prop where
  /-- Some of the words are left. -/
  suffix : rest <:+ words
  /-- They stand behind the argument. -/
  rest_eq : d.rest = spaced rest
  /-- The parser moved on. -/
  le : c ≤ d
  /-- The argument is no placeholder. -/
  plain : isPlaceholder value = false
  /-- The rule tells the argument from the words. -/
  rule : ∀ {arguments}, WordsAt d.offset rest arguments →
    WordsAt c.offset (word :: words) (value :: arguments)

/-- An argument of one word leaves the words behind it. -/
theorem FirstArgument.alone {value : Argument} (hrest : c.rest = spaced (word :: words))
    (hplain : isPlaceholder value = false)
    (hrule : ∀ {arguments}, WordsAt (wordSpan c.offset word).stop words arguments →
      WordsAt c.offset (word :: words) (value :: arguments)) :
    FirstArgument c word words value words ((c.advance 1).advance word.toList.length) := by
  obtain ⟨hend, hle⟩ := exists_word_end hrest
  have hstop := Cursor.word_stop hrest
  exact ⟨List.suffix_refl _, hend, hle, hplain, fun h => hrule (hstop ▸ h)⟩

/-- Three numerals are read as coordinates. -/
theorem exists_coordinates (hwords : ∀ w ∈ word :: words, Row Scan.isWordChar w.toList)
    (hrest : c.rest = spaced (word :: words)) (h : StartsTriple (word :: words)) :
    ∃ value rest d, FirstArgument c word words value rest d ∧
      argument inside run inMacro s (c.advance 1) = .done value [] d := by
  obtain ⟨second, third, rest, rfl⟩ : ∃ second third rest, words = second :: third :: rest := by
    rcases words with _ | ⟨second, _ | ⟨third, rest⟩⟩
    · exact absurd h.1 (by simp)
    · exact absurd h.1 (by simp)
    · exact ⟨second, third, rest, rfl⟩
  have hword : (c.advance 1).rest = word.toList ++ spaced (second :: third :: rest) :=
    Cursor.advance_one_of_cons hrest
  have hcoordinates := Scan.coordinates_spaced hwords h
  rw [← hword] at hcoordinates
  have hnumerals := h.2
  simp only [List.take_succ_cons, List.take_zero, List.forall_mem_cons] at hnumerals
  obtain ⟨⟨x, hx⟩, ⟨y, hy⟩, ⟨z, hz⟩, -⟩ := hnumerals
  -- each word stands behind the blank where the one before it ends
  obtain ⟨hrest', hle⟩ := exists_word_end hrest
  obtain ⟨hrest'', hle'⟩ := exists_word_end hrest'
  obtain ⟨hend, hle''⟩ := exists_word_end hrest''
  have hnumber := Cursor.word_number hrest hx
  have hnumber' := Cursor.word_number hrest' hy
  have hnumber'' := Cursor.word_number hrest'' hz
  have hpart := Cursor.word_part (c := c.advance 1) (n := 0) hword (hwords _ (by simp)) hx
  have hword' : (c.advance 1).rest.drop (word.toList.length + 1) =
      second.toList ++ spaced (third :: rest) := by
    rw [hword]
    exact Scan.drop_word word second _ 0
  have hword'' : (c.advance 1).rest.drop (word.toList.length + 1 + second.toList.length + 1) =
      third.toList ++ spaced rest := by
    rw [hword]
    exact Scan.drop_third word second third rest 0
  have hpart' := Cursor.word_part hword' (hwords _ (by simp)) hy
  have hpart'' := Cursor.word_part hword'' (hwords _ (by simp)) hz
  rw [← Cursor.advance_advance] at hpart'
  rw [← Cursor.advance_advance, ← Cursor.advance_advance, ← Cursor.advance_advance] at hpart''
  refine ⟨_, rest, _, ⟨⟨[second, third], rfl⟩, hend, hle.trans (hle'.trans hle''), ?_,
    fun h => .coordinates hnumber hnumber' hnumber'' h⟩, ?_⟩
  · rfl
  · rw [argument_coordinates hword hwords hcoordinates, Cursor.coordinates, Triple.map]
    dsimp only
    rw [Nat.zero_add] at hpart
    rw [hpart, hpart', hpart'', ← Cursor.advance_advance, ← Cursor.advance_advance,
      ← Cursor.advance_advance, ← Cursor.advance_advance]
    rfl

/-- A numeral by itself is read as a number. -/
theorem exists_number {suffix : Option Char}
    (hwords : ∀ w ∈ word :: words, Row Scan.isWordChar w.toList)
    (hrest : c.rest = spaced (word :: words)) (htriple : ¬ StartsTriple (word :: words))
    (h : WritesNumber word suffix) :
    ∃ value rest d, FirstArgument c word words value rest d ∧
      argument inside run inMacro s (c.advance 1) = .done value [] d := by
  have hnumber := Cursor.word_number hrest h
  have hfirst := FirstArgument.alone hrest rfl fun h' =>
    .number htriple hnumber (hnumber.stop_eq ▸ h')
  exact ⟨_, words, _, hfirst,
    argument_number (Cursor.advance_one_of_cons hrest) hwords htriple h⟩

/-- A `run` with a command behind it takes all words that are left. -/
theorem exists_run (hrun : ParsesRuns room run) (hplain : PlainWords ("run" :: words))
    (hcount : ("run" :: words).count "run" ≤ room) (hrest : c.rest = spaced ("run" :: words))
    (h : ∃ name ∈ words.head?, StartsLower name) :
    ∃ clause d, FirstArgument c "run" words (.run clause) [] d ∧
      run (c.advance 1) s ((c.advance 1).advance "run".toList.length) = .done clause [] d := by
  obtain ⟨name, hname, hlower⟩ := h
  obtain ⟨rest, rfl⟩ := List.head?_eq_some_iff.mp hname
  obtain ⟨hend, hle⟩ := exists_word_end hrest
  have hword : (c.advance 1).rest = "run".toList ++ spaced (name :: rest) :=
    Cursor.advance_one_of_cons hrest
  have hstart : c.advance 1 ≤ (c.advance 1).advance "run".toList.length :=
    Cursor.le_advance (Cursor.length_le_of_append hword)
  obtain ⟨arguments, d, hwords, hle', hd, hdone⟩ :=
    hrun (s := s) hstart hplain hcount hlower hend
  have hgap : (c.advance 1).offset = (wordSpan c.offset "run").start :=
    Cursor.advance_one_offset hrest rfl
  have hstop := Cursor.word_stop hrest
  refine ⟨_, d, ⟨⟨_, List.append_nil _⟩, hd, hle.trans hle', rfl, fun h' => ?_⟩, hdone⟩
  cases h'
  rw [hgap, hstop]
  rw [hstop] at hwords
  exact .run hlower (hrest ▸ Cursor.offset_of_rest_eq_nil (hle.trans hle') hd) hwords

/-- A word that is no numeral is read as a truth value, a run clause or a keyword. -/
theorem exists_word (hrun : ParsesRuns room run) (hplain : PlainWords (word :: words))
    (hcount : (word :: words).count "run" ≤ room) (hrest : c.rest = spaced (word :: words))
    (h : ¬ IsNumeral word) :
    ∃ value rest d, FirstArgument c word words value rest d ∧
      argument inside run inMacro s (c.advance 1) = .done value [] d := by
  have hword : (c.advance 1).rest = word.toList ++ spaced words :=
    Cursor.advance_one_of_cons hrest
  have hsub := Scan.startsSubcommand_spaced (List.forall_mem_cons.mp hplain.row).2
  rw [argument_word hword hplain.row h, Cursor.word_textRun hrest]
  by_cases htrue : word = "true"
  · have htruth : word = if true then "true" else "false" := htrue
    rw [if_pos htrue]
    exact ⟨_, words, _, .alone hrest rfl fun h' => .boolean htruth h', rfl⟩
  rw [if_neg htrue]
  by_cases hfalse : word = "false"
  · have htruth : word = if false then "true" else "false" := hfalse
    rw [if_pos hfalse]
    exact ⟨_, words, _, .alone hrest rfl fun h' => .boolean htruth h', rfl⟩
  rw [if_neg hfalse]
  by_cases hcommand : word = "run" ∧ startsSubcommand (spaced words)
  · rw [if_pos hcommand]
    obtain ⟨rfl, hstart⟩ := hcommand
    obtain ⟨clause, d, hfirst, hdone⟩ := exists_run (s := s) hrun hplain hcount hrest
      (hsub.mp hstart)
    exact ⟨.run clause, [], d, hfirst, bind_done hdone⟩
  · rw [if_neg hcommand]
    refine ⟨_, words, _, .alone hrest rfl fun h' => ?_, rfl⟩
    refine .keyword h htrue hfalse (fun hrun next hnext hlower => ?_) h'
    exact hcommand ⟨hrun, hsub.mpr ⟨next, hnext, hlower⟩⟩

/-- One argument is read from the front of a row of words. -/
theorem exists_argument (hrun : ParsesRuns room run) (hplain : PlainWords (word :: words))
    (hcount : (word :: words).count "run" ≤ room) (hrest : c.rest = spaced (word :: words)) :
    ∃ value rest d, FirstArgument c word words value rest d ∧
      argument inside run inMacro s (c.advance 1) = .done value [] d := by
  by_cases htriple : StartsTriple (word :: words)
  · exact exists_coordinates hplain.row hrest htriple
  · by_cases hnumeral : IsNumeral word
    · obtain ⟨suffix, h⟩ := hnumeral
      exact exists_number hplain.row hrest htriple h
    · exact exists_word hrun hplain hcount hrest hnumeral

/-! ### All arguments -/

/-- An argument behind a blank, and those behind it. -/
theorem argumentList_cons {argument : Parser Argument} {value : Argument}
    {values : List Argument} {d e : Cursor} {fuel : Nat}
    (hrow : Row Scan.isWordChar word.toList) (hrest : c.rest = spaced (word :: words))
    (hvalue : argument s (c.advance 1) = .done value [] d) (hplain : isPlaceholder value = false)
    (hvalues : argumentList argument false fuel s d = .done values [] e) :
    argumentList argument false (fuel + 1) s c = .done (value :: values) [] e := by
  have hword : (c.advance 1).rest = word.toList ++ spaced words :=
    Cursor.advance_one_of_cons hrest
  have hskip : c.skipTrivia = c.advance 1 := by
    rw [Cursor.skipTrivia, hrest, Scan.trivia_spaced hrow]
  have hline : ¬ Scan.atLineEnd (c.advance 1).rest := by
    have hstart := (hrow.mono Scan.isScalarChar_of_isWordChar).startsElement
    rw [hword, (hstart.append _).atLineEnd]
    exact Bool.false_ne_true
  have hglued : ((c.advance 1).offset == c.offset && !false && (c.advance 1).peek != some '[' &&
      (c.advance 1).peek != some '{') = false := by
    have hgap : (c.advance 1).offset = c.offset + 1 := Cursor.advance_one_offset hrest rfl
    simp [hgap]
  rw [argumentList, bind_done here_run, bind_done skipTrivia_run, hskip, bind_done here_run,
    if_neg hline, hglued, if_neg Bool.false_ne_true, bind_done (orPlaceholder_run hvalue), hplain,
    bind_done hvalues]
  rfl

theorem argumentList_words (hrun : ParsesRuns room run) (words : List String) :
    ∀ {c : Cursor} {fuel : Nat}, PlainWords words → words.count "run" ≤ room →
      c.rest = spaced words → words.length < fuel →
      ∃ arguments d, WordsAt c.offset words arguments ∧ c ≤ d ∧ d.rest = [] ∧
        argumentList (argument inside run inMacro) false fuel s c = .done arguments [] d := by
  -- an argument may take several words, so the induction is on their number
  induction hlength : words.length using Nat.strong_induction_on generalizing words with
  | _ length ih =>
      intro c fuel hplain hcount hrest hfuel
      obtain ⟨fuel, rfl⟩ := Nat.exists_eq_add_of_lt (Nat.zero_lt_of_lt hfuel)
      rw [Nat.zero_add] at hfuel ⊢
      cases words with
      | nil => exact ⟨[], c, .nil, le_rfl, hrest, argumentList_end hrest⟩
      | cons word words =>
          obtain ⟨value, rest, d, hfirst, hvalue⟩ := exists_argument hrun hplain hcount hrest
          have hsuffix : rest <:+ word :: words := hfirst.suffix.trans (List.suffix_cons word words)
          have hlt : rest.length < length := by
            have := hfirst.suffix.length_le
            rw [List.length_cons] at hlength
            omega
          have hfuel' : rest.length < fuel := by omega
          obtain ⟨values, e, hvalues, hle, hend, hdone⟩ := ih rest.length hlt rest rfl
            (hplain.of_suffix hsuffix) ((hsuffix.sublist.count_le _).trans hcount) hfirst.rest_eq
            hfuel'
          exact ⟨value :: values, e, hfirst.rule hvalues, hfirst.le.trans hle, hend,
            argumentList_cons (hplain.row word List.mem_cons_self) hrest hvalue hfirst.plain hdone⟩

theorem argumentsOf_words {clause : Cursor → Parser RunClause}
    (hclause : ParsesRuns room fun start => wideningTooDeep start (clause start)) :
    ParsesWords room (argumentsOf inside clause inMacro) := by
  intro s c words hplain hcount hrest
  have hfuel : words.length < c.rest.length + 1 :=
    Nat.lt_succ_of_le (hrest ▸ length_le_spaced words)
  rw [argumentsOf, bind_done here_run]
  exact argumentList_words hclause words hplain hcount hrest hfuel

/-! ### Commands -/

/-- A name and the words behind it are read as a command that reaches to the end. -/
theorem command_words {arguments : Parser (List Argument)} {name : String}
    (h : ParsesWords room arguments) (hplain : PlainWords words)
    (hcount : words.count "run" ≤ room) (hrest : c.rest = name.toList ++ spaced words)
    (hname : Scan.commandName c.rest = some name.toList.length) :
    ∃ values d, WordsAt (c.offset + name.utf8ByteSize) words values ∧ c ≤ d ∧ d.rest = [] ∧
      command arguments s c = .done ⟨⟨name, c.offset, c.offset + name.utf8ByteSize⟩, values,
        c.offset, d.offset⟩ [] d := by
  have hlen := Cursor.length_le_of_append hrest
  have hle := Cursor.le_advance hlen
  have hstop : (c.advance name.toList.length).offset = c.offset + name.utf8ByteSize := by
    rw [Cursor.advance_offset hlen, hrest, List.take_left, byteWidth_eq_utf8ByteSize]
  have htail : (c.advance name.toList.length).rest = spaced words :=
    Cursor.advance_rest_of_append hrest
  obtain ⟨values, d, hvalues, hle', hd, hdone⟩ := h (s := s) hplain hcount htail
  have hend : commandEnd c.offset values s d = .done d.offset [] d := by
    have hstart := Cursor.offset_le_of_le (hle.trans hle')
    rw [commandEnd]
    rcases hlast : values.getLast? with _ | last
    · dsimp only
      rw [bind_done here_run, max_eq_left hstart]
      rfl
    · dsimp only
      rw [hvalues.last_stop last hlast, ← htail, ← Cursor.offset_of_rest_eq_nil hle' hd,
        max_eq_left hstart]
      rfl
  have htext : c.textRun name.toList.length = ⟨name, c.offset, c.offset + name.utf8ByteSize⟩ := by
    rw [Cursor.textRun, Cursor.textBetween_of_append hrest, Cursor.spanTo, hstop]
  rw [hstop] at hvalues
  refine ⟨values, d, hvalues, hle.trans hle', hd, ?_⟩
  rw [command, bind_done here_run, bind_done (commandName_run hname), bind_done hdone,
    bind_done hend, bind_done (span_run (Cursor.offset_le_of_le (hle.trans hle'))), htext]
  rfl

/-- The words behind `run` are read as a command. -/
theorem runClause_words {arguments : Bool → Parser (List Argument)}
    (h : ∀ inMacro, ParsesWords room (arguments inMacro)) :
    ParsesRuns (room + 1) fun start =>
      wideningTooDeep start (runClause arguments inMacro start) := by
  intro s start c name words hstart hplain hcount hlower hrest
  have hrow := hplain.row name (by simp)
  have hname : (c.advance 1).rest = name.toList ++ spaced words :=
    Cursor.advance_one_of_cons hrest
  have hskip : c.skipTrivia = c.advance 1 := by
    rw [Cursor.skipTrivia, hrest, Scan.trivia_spaced hrow]
  have hcommand : Scan.commandName (c.advance 1).rest = some name.toList.length := by
    rw [hname]
    exact Scan.commandName_row hrow.2 (hplain.name name ⟨[], words, rfl⟩ hlower) hlower
      (wordEnd_spaced words)
  have hdollar : ((c.advance 1).peek == some '$') = false := by
    obtain ⟨x, hx, hlower⟩ := hlower
    obtain ⟨tail, htail⟩ := List.head?_eq_some_iff.mp hx
    have hpeek : (c.advance 1).peek = some x := Cursor.peek_of_cons (by rw [hname, htail]; rfl)
    have hne : x ≠ '$' := Scan.ne_of_class hlower (by decide)
    rw [hpeek]
    simpa using hne
  have hcount' : words.count "run" ≤ room := by
    rw [List.count_cons_self] at hcount
    exact List.count_le_count_cons.trans (Nat.le_of_succ_le_succ hcount)
  obtain ⟨values, d, hvalues, hle, hd, hdone⟩ := command_words (s := s) (h inMacro)
    (hplain.of_suffix ⟨["run", name], rfl⟩) hcount' hname hcommand
  have hle' : c ≤ d := (Cursor.le_advance_of_peek (Cursor.peek_of_cons hrest)).trans hle
  have hgap : (c.advance 1).offset = c.offset + 1 := Cursor.advance_one_offset hrest rfl
  rw [hgap] at hvalues hdone
  refine ⟨values, d, hvalues, hle', hd, ?_⟩
  have hclause : runClause arguments inMacro start s c =
      .done ⟨.command ⟨⟨name, wordSpan c.offset name⟩, values, c.offset + 1, d.offset⟩,
        start.offset, d.offset⟩ [] d := by
    rw [runClause, bind_done skipTrivia_run, hskip, bind_done here_run, hdollar,
      if_neg Bool.false_ne_true, map_bind, bind_done hdone, subcommandOf,
      hvalues.any_isInterpolated, if_neg Bool.false_ne_true]
    exact bind_done (span_run (Cursor.offset_le_of_le (hstart.trans hle')))
  change wideningTooDeep start (runClause arguments inMacro start) s c = _
  rw [wideningTooDeep, orElse, hclause]

/-- Rows of words are read with as many levels as there are run clauses. -/
theorem arguments_words (room : Nat) (inMacro : Bool) :
    ParsesWords room (arguments room inMacro) := by
  induction room generalizing inMacro with
  | zero =>
      rw [arguments_zero]
      refine argumentsOf_words fun _ _ hcount => ?_
      rw [List.count_cons_self] at hcount
      exact absurd hcount (Nat.not_succ_le_zero _)
  | succ room ih =>
      rw [arguments_succ]
      exact argumentsOf_words (runClause_words ih)

end Parser

/-- **A line of plain words.** Behind the name of a command, plain words with single blanks
between them are read by the rule, which leaves no choice, and the command reaches to the end of
the text. The limit has to admit as many run clauses as there are words `run`. -/
theorem parse_words {words : List String} {options : ParseOptions} (hplain : PlainWords words)
    (hdepth : words.count "run" ≤ options.maxDepth) :
    ∃ arguments, (∀ found, WordsAt 1 words found ↔ found = arguments) ∧
      Document.parse (" ".intercalate ("x" :: words)) options =
        .ok (.ok ⟨[.command ⟨⟨"x", 0, 1⟩, arguments,
          0, (" ".intercalate ("x" :: words)).utf8ByteSize⟩]⟩) := by
  have hline := toList_intercalate_blank "x" words
  generalize " ".intercalate ("x" :: words) = text at hline
  have hrest : (Cursor.start text).rest = "x".toList ++ spaced words := hline
  have hname : Scan.commandName (Cursor.start text).rest = some "x".toList.length := by
    have hrow : Row Scan.isWordChar "x".toList := by decide
    rw [hrest]
    exact Scan.commandName_row hrow.2 (by decide) ⟨'x', rfl, rfl⟩ (wordEnd_spaced words)
  obtain ⟨arguments, d, harguments, hle, hd, hdone⟩ :=
    Parser.command_words (s := ⟨options.maxDepth, .strict⟩)
      (Parser.arguments_words options.maxDepth false) hplain hdepth hrest hname
  have hsize : d.offset = text.utf8ByteSize := by
    rw [Cursor.offset_of_rest_eq_nil hle hd, ← byteWidth_eq_utf8ByteSize]
    exact Nat.zero_add _
  have hfuel : 2 ≤ (Cursor.start text).rest.length + 1 := by
    rw [hrest]
    exact Nat.succ_le_succ (Nat.succ_pos _)
  obtain ⟨log, hrun⟩ := Parser.statements_single (Cursor.peek_of_cons hrest) rfl hdone hd hfuel
  refine ⟨arguments, fun found => ⟨fun h => h.unique harguments, fun h => h ▸ harguments⟩, ?_⟩
  rw [Document.parse, Document.run, Parser.document_run, Parser.bind_run, hrun, ← hsize]
  rfl

/-- A triple, a keyword that starts as a number, and a run clause with a truth value and a
number of its own. -/
theorem parse_words_run_say :
    PlainWords ["1", "2", "3b", "5abc", "run", "say", "true", "-1e5"] ∧
      ["1", "2", "3b", "5abc", "run", "say", "true", "-1e5"].count "run" ≤ 1 ∧
      ∃ arguments,
        (∀ found, WordsAt 1 ["1", "2", "3b", "5abc", "run", "say", "true", "-1e5"] found ↔
          found = arguments) ∧
        Document.parse "x 1 2 3b 5abc run say true -1e5" ⟨1⟩ =
          .ok (.ok ⟨[.command ⟨⟨"x", 0, 1⟩, arguments, 0, 31⟩]⟩) := by
  have hplain : PlainWords ["1", "2", "3b", "5abc", "run", "say", "true", "-1e5"] := by
    refine .cons (by decide) (by simp) (.cons (by decide) (by simp) (.cons (by decide) (by simp)
      (.cons (by decide) (by simp) (.cons (by decide) ?_ (.cons (by decide) (by simp)
      (.cons (by decide) (by simp) (.cons (by decide) (by simp) .nil)))))))
    rintro - _ ⟨⟩ -
    decide
  have hdepth : ["1", "2", "3b", "5abc", "run", "say", "true", "-1e5"].count "run" ≤
      (ParseOptions.mk 1).maxDepth := by
    decide
  have hline : " ".intercalate ("x" :: ["1", "2", "3b", "5abc", "run", "say", "true", "-1e5"]) =
      "x 1 2 3b 5abc run say true -1e5" := by
    decide
  have hsize : "x 1 2 3b 5abc run say true -1e5".utf8ByteSize = 31 := by decide
  refine ⟨hplain, hdepth, ?_⟩
  have h := parse_words hplain hdepth
  rwa [hline, hsize] at h

end Mcfunction
