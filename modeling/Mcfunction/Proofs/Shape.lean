import Mcfunction.Proofs.Faithful
import Mcfunction.Proofs.Shape.Fragments
import Mcfunction.Proofs.Shape.Opening

/-!
# The Shape of a Tree

The types of the tree allow more than the parsers build. What they promise beyond the types is
here: what a statement is shows in its first character; interpolated arguments stand in macro
commands only, and a macro command without a `$` only after a `run` inside one with a `$`; nothing
follows a run clause; containers and paths are not empty where the types would let them be; and
interpolated text has an interpolation.

All of this holds of the documents of tolerant parses with all their placeholders, and so of the
documents of strict parses.

## Main results

* `Node.ReadFrom.shaped`: the shape of each node.
* `ArgumentsAt.sheltered`: where macro commands stand.
* `Document.shaped_of_parse`: the shape of the documents that parses give.
-/

namespace Mcfunction

/-! ### Shapes -/

/-- The text of the span starts with `x`. -/
def Span.StartsWith (text : String) (span : Span) (x : Char) : Prop :=
  ∃ tail, span.Holds text (x :: tail)

/-- A run clause stands last among the arguments of a command and ends where the command ends. -/
def RunStandsLast (arguments : List Argument) (command : Span) : Prop :=
  ∀ before clause after, arguments = before ++ .run clause :: after →
    after = [] ∧ clause.span.stop = command.stop

/-- The shape of an argument: a path has a segment, and a suffix if it has only one; a keyword is
no truth value. -/
def Argument.Shaped : Argument → Prop
  | .path node => node.segments ≠ [] ∧
      ∀ segment, node.segments = [segment] → segment.suffixes ≠ []
  | .keyword node => node.text ≠ "true" ∧ node.text ≠ "false"
  | .coordinates _ | .string _ | .number _ | .resource _ | .selector _ | .list _ | .compound _
  | .boolean _ | .fakePlayer _ | .run _ | .interpolated _ | .error _ => True

/-- The shape of a node, apart from the nodes in it. -/
def Node.Shaped (text : String) : Node → Prop
  | .command node => (∀ argument ∈ node.arguments, Parser.isInterpolated argument = false) ∧
      RunStandsLast node.arguments node.span
  | .macroCommand node => RunStandsLast node.arguments node.span ∧
      (¬ node.span.StartsWith text '$' → node.arguments.any Parser.isInterpolated)
  | .argument node => node.Shaped
  | .list node => node.items ≠ .pairs []
  | .compound node => node.pairs ≠ []
  | .interpolated node => node.interpolations ≠ [] ∧ Fragment.Alternate node.fragments
  | .statement _ | .name _ | .comment _ | .error _ | .part _ | .string _ | .resource _
  | .selector _ | .pair _ | .key _ | .value _ | .segment _ | .subcommand _ => True

mutual

/-- Every macro command in the argument starts with a `$` or stands inside one that does;
`inMacro` tells whether the argument does. -/
def Argument.Sheltered (text : String) (inMacro : Bool) : Argument → Prop
  | .run clause => clause.Sheltered text inMacro
  | .coordinates _ | .string _ | .number _ | .resource _ | .selector _ | .list _ | .compound _
  | .boolean _ | .fakePlayer _ | .path _ | .keyword _ | .interpolated _ | .error _ => True

/-- So does every macro command in the run clause. -/
def RunClause.Sheltered (text : String) (inMacro : Bool) : RunClause → Prop
  | ⟨subcommand, _⟩ => subcommand.Sheltered text inMacro

/-- So does the subcommand, if it is a macro command, and every one in it. -/
def Subcommand.Sheltered (text : String) (inMacro : Bool) : Subcommand → Prop
  | .command plain => plain.Sheltered text inMacro
  | .macroCommand line => line.Sheltered text inMacro

/-- So does every macro command in the command. -/
def Command.Sheltered (text : String) (inMacro : Bool) : Command → Prop
  | ⟨_, arguments, _⟩ => Argument.AllSheltered text inMacro arguments

/-- So does the macro command and every one in it. -/
def MacroCommand.Sheltered (text : String) (inMacro : Bool) : MacroCommand → Prop
  | ⟨_, arguments, span⟩ =>
    (span.StartsWith text '$' ∧ Argument.AllSheltered text true arguments) ∨
      (inMacro ∧ Argument.AllSheltered text inMacro arguments)

/-- So does every macro command in the arguments. -/
def Argument.AllSheltered (text : String) (inMacro : Bool) : List Argument → Prop
  | [] => True
  | argument :: arguments =>
    argument.Sheltered text inMacro ∧ Argument.AllSheltered text inMacro arguments

end

/-- Every macro command in the statement starts with a `$` or stands inside one that does. -/
def Statement.Sheltered (text : String) : Statement → Prop
  | .command plain => plain.Sheltered text false
  | .macroCommand line => line.Sheltered text false
  | .comment _ | .error _ => True

/-- The shape of a document that was read from a text. -/
structure Document.Shaped (text : String) (document : Document) : Prop where
  /-- A statement is what its first character makes it. -/
  statements : ∀ statement ∈ document.statements,
    ∃ x, statement.span.StartsWith text x ∧ statement.Fits x
  /-- Each node has its shape. -/
  nodes : ∀ node ∈ document.nodes, node.Shaped text
  /-- A macro command without a `$` stands after a `run` inside one with a `$`. -/
  sheltered : ∀ statement ∈ document.statements, statement.Sheltered text

variable {text : String} {c d : Cursor}

/-- What stands at a place starts with the character there. -/
theorem Span.startsWith_of_peek {span : Span} {x : Char} (htext : Cursor.start text ≤ c)
    (hlt : c < d) (hspan : span = c.spanTo d) (hpeek : c.peek = some x) :
    span.StartsWith text x := by
  obtain ⟨chars, hspells⟩ := hlt.le
  have hlen := Cursor.length_lt_of_lt hlt
  rw [hspells.1, List.length_append] at hlen
  obtain ⟨y, tail, rfl⟩ := List.exists_cons_of_length_pos (l := chars) (by omega)
  rw [Cursor.peek, hspells.1] at hpeek
  obtain rfl := Option.some.inj hpeek
  exact ⟨tail, hspan ▸ Cursor.Spells.holds htext hspells⟩

/-! ### Containers and paths -/

/-- A container whose elements have been read is not empty. -/
theorem ElementsAt.ne_nil {α : Type} {element : Cursor → α → Cursor → Prop} {closer : Char}
    {values : List α} (h : ElementsAt element closer c values d) : values ≠ [] := by
  cases h <;> exact List.cons_ne_nil _ _

/-- An empty list is one of values, not of pairs. -/
theorem ListOfAt.items_ne {value : Cursor → NbtValue → Cursor → Prop} {list : NbtList}
    (h : ListOfAt value c list d) : list.items ≠ .pairs [] := by
  cases h with
  | empty | values => exact fun h => nomatch h
  | pairs _ _ h => exact fun heq => h.ne_nil (NbtItems.pairs.inj heq)

/-- A compound is not empty. -/
theorem CompoundOfAt.pairs_ne_nil {value : Cursor → NbtValue → Cursor → Prop}
    {compound : NbtCompound} (h : CompoundOfAt value c compound d) : compound.pairs ≠ [] := by
  obtain ⟨-, h⟩ := h
  exact h.ne_nil

/-- A path has a segment. -/
theorem SegmentsAt.ne_nil {room : Nat} {start : Cursor} {name : NbtKey}
    {segments : List PathSegment} (h : SegmentsAt room start name c segments d) :
    segments ≠ [] := by
  cases h <;> exact List.cons_ne_nil _ _

/-- A name with no more than a name after it would be a word. -/
theorem PathAt.shaped {room : Nat} {path : NbtPath} (h : PathAt room c path d) :
    (Argument.path path).Shaped := by
  obtain ⟨-, hsuffix, h⟩ := h
  refine ⟨h.ne_nil, fun segment hsegment => ?_⟩
  cases h with
  | last hsuffixes hpoint =>
      obtain rfl := (List.cons.inj hsegment).1
      rintro (rfl : _ = [])
      obtain ⟨hsquare, hcurly⟩ := hsuffixes
      unfold Parser.startsPathSuffix at hsuffix
      split at hsuffix <;> simp_all [Cursor.peek]
  | next _ _ _ h => exact absurd (List.cons.inj hsegment).2 h.ne_nil

/-! ### Run clauses -/

/-- A run clause takes the rest of its statement. -/
theorem RunClauseAt.atLineEnd {arguments : Bool → Cursor → List Argument → Cursor → Prop}
    {inMacro : Bool} {start : Cursor} {clause : RunClause}
    (harguments : ∀ inMacro, ArgumentsPlaced (arguments inMacro))
    (h : RunClauseAt arguments inMacro start c clause d) :
    Scan.atLineEnd d.skipTrivia.rest := by
  cases h with
  | command h =>
      obtain ⟨-, h⟩ := h
      exact (harguments inMacro).atLineEnd h
  | macroCommand h =>
      obtain ⟨-, -, h⟩ := h
      exact (harguments true).atLineEnd h

/-- In a list of arguments a run clause stands last if it ends where the line does. -/
theorem ArgumentListAt.run_last {argument : Cursor → Argument → Cursor → Prop}
    {afterError : Bool} {arguments : List Argument}
    (hplaced : ∀ {c value d}, argument c value d → Placed c value.span d)
    (hrun : ∀ {c clause d}, argument c (.run clause) d → Scan.atLineEnd d.skipTrivia.rest)
    (h : ArgumentListAt argument afterError c arguments d) :
    ∀ before clause after, arguments = before ++ .run clause :: after →
      after = [] ∧ clause.span.stop = d.offset := by
  induction h with
  | nil => simp
  | cons _ _ hfirst htail ih =>
      rintro (_ | ⟨_, before⟩) clause after heq
      · obtain ⟨rfl, rfl⟩ := List.cons.inj heq
        have hend := hrun hfirst
        cases htail with
        | nil =>
            have hspan : clause.span = _ := (hplaced hfirst).span_eq
            exact ⟨rfl, by rw [hspan]; rfl⟩
        | cons hline | error hline => simp [hend] at hline
      · exact ih before clause after (List.cons.inj heq).2
  | error _ _ _ ih =>
      rintro (_ | ⟨_, before⟩) clause after heq
      · cases heq
      · exact ih before clause after (List.cons.inj heq).2

/-- A run clause stands last among the arguments, whatever room for nesting was left. -/
theorem ArgumentsAt.run_last {room : Nat} {inMacro : Bool} {arguments : List Argument}
    (h : ArgumentsAt room inMacro c arguments d) :
    ∀ before clause after, arguments = before ++ .run clause :: after →
      after = [] ∧ clause.span.stop = d.offset := by
  cases room with
  | zero =>
      refine ArgumentListAt.run_last (fun h => h.placed fun _ _ _ _ h => h.elim) (fun h => ?_) h
      cases h with
      | run _ _ _ h => exact h.elim
  | succ room =>
      have hplaced := ArgumentsAt.argumentsPlaced room
      refine ArgumentListAt.run_last (fun h => h.placed fun _ _ _ _ h => h.within hplaced)
        (fun h => ?_) h
      cases h with
      | run _ _ _ h => exact h.atLineEnd hplaced

/-- A run clause stands last in a command. -/
theorem CommandAt.runStandsLast {room : Nat} {inMacro : Bool} {command : Command}
    (h : CommandAt (ArgumentsAt room inMacro) c command d) :
    RunStandsLast command.arguments command.span := by
  obtain ⟨-, h⟩ := h
  exact h.run_last

/-- A run clause stands last in a macro command. -/
theorem MacroCommandAt.runStandsLast {room : Nat} {command : MacroCommand}
    (h : MacroCommandAt (ArgumentsAt room true) c command d) :
    RunStandsLast command.arguments command.span := by
  obtain ⟨-, -, h⟩ := h
  exact h.run_last

/-! ### Macro commands -/

/-- A macro command starts with a dollar sign. -/
theorem MacroCommandAt.startsWith {room : Nat} {command : MacroCommand}
    (htext : Cursor.start text ≤ c) (h : MacroCommandAt (ArgumentsAt room true) c command d) :
    command.span.StartsWith text '$' := by
  have hplaced := h.placed (ArgumentsAt.argumentsPlaced room true)
  obtain ⟨hdollar, -, -⟩ := h
  exact Span.startsWith_of_peek htext hplaced.lt hplaced.span_eq hdollar

/-- The macro commands in the arguments between two places are sheltered. -/
def ArgumentsSheltered (text : String) (inMacro : Bool)
    (arguments : Cursor → List Argument → Cursor → Prop) : Prop :=
  ∀ {c args d}, Cursor.start text ≤ c → arguments c args d →
    Argument.AllSheltered text inMacro args

/-- The macro commands in the arguments of a command are sheltered. -/
theorem CommandAt.arguments_sheltered {arguments : Cursor → List Argument → Cursor → Prop}
    {inMacro : Bool} {command : Command} (harguments : ArgumentsSheltered text inMacro arguments)
    (htext : Cursor.start text ≤ c) (h : CommandAt arguments c command d) :
    Argument.AllSheltered text inMacro command.arguments := by
  obtain ⟨hname, h⟩ := h
  exact harguments (htext.trans (Cursor.le_advance (Scan.inline_commandName hname).le_length)) h

/-- The macro commands in a command are sheltered if those in arguments are. -/
theorem CommandAt.sheltered {arguments : Cursor → List Argument → Cursor → Prop}
    {inMacro : Bool} {command : Command} (harguments : ArgumentsSheltered text inMacro arguments)
    (htext : Cursor.start text ≤ c) (h : CommandAt arguments c command d) :
    command.Sheltered text inMacro := by
  have hsheltered := h.arguments_sheltered harguments htext
  obtain ⟨name, arguments, span⟩ := command
  exact hsheltered

/-- A macro command with a dollar sign shelters those in it. -/
theorem MacroCommandAt.sheltered {room : Nat} {inMacro : Bool} {command : MacroCommand}
    (harguments : ArgumentsSheltered text true (ArgumentsAt room true))
    (htext : Cursor.start text ≤ c) (h : MacroCommandAt (ArgumentsAt room true) c command d) :
    command.Sheltered text inMacro := by
  have hstarts := h.startsWith htext
  obtain ⟨hdollar, hname, h⟩ := h
  have hopen : c ≤ (c.advance 1).skipTrivia :=
    (Cursor.le_advance_of_peek hdollar).trans (Cursor.le_skipTrivia _)
  exact .inl ⟨hstarts, harguments (htext.trans (hopen.trans hname.placed.le)) h⟩

/-- A command after a `run` becomes a macro command only inside another one: elsewhere its
arguments are not interpolated. -/
theorem CommandAt.subcommandOf_sheltered {room : Nat} {inMacro : Bool} {command : Command}
    (harguments : ArgumentsSheltered text inMacro (ArgumentsAt room inMacro))
    (htext : Cursor.start text ≤ c) (h : CommandAt (ArgumentsAt room inMacro) c command d) :
    (Parser.subcommandOf command).Sheltered text inMacro := by
  unfold Parser.subcommandOf
  split
  · rename_i hany
    refine .inr ⟨?_, h.arguments_sheltered harguments htext⟩
    obtain ⟨-, h⟩ := h
    cases inMacro with
    | true => rfl
    | false => simp [h.any_isInterpolated] at hany
  · exact h.sheltered harguments htext

/-- The macro commands in a run clause are sheltered if those in arguments are. -/
theorem RunClauseAt.sheltered {room : Nat} {inMacro : Bool} {start : Cursor} {clause : RunClause}
    (harguments : ∀ inMacro, ArgumentsSheltered text inMacro (ArgumentsAt room inMacro))
    (htext : Cursor.start text ≤ c)
    (h : RunClauseAt (ArgumentsAt room) inMacro start c clause d) :
    clause.Sheltered text inMacro := by
  have hstart := htext.trans c.le_skipTrivia
  cases h with
  | command h => exact h.subcommandOf_sheltered (harguments inMacro) hstart
  | macroCommand h => exact h.sheltered (harguments true) hstart

/-- The macro commands in a list of arguments are sheltered if those in run clauses are. -/
theorem ArgumentListAt.sheltered {room : Nat} {inMacro afterError : Bool}
    {run : Cursor → Cursor → RunClause → Cursor → Prop} {arguments : List Argument}
    (hforward : Forward (ArgumentAt room run inMacro))
    (hrun : ∀ {start c clause d}, Cursor.start text ≤ c → run start c clause d →
      clause.Sheltered text inMacro)
    (htext : Cursor.start text ≤ c)
    (h : ArgumentListAt (ArgumentAt room run inMacro) afterError c arguments d) :
    Argument.AllSheltered text inMacro arguments := by
  induction h with
  | nil => exact trivial
  | @cons _ c _ _ _ _ _ _ hfirst _ ih =>
      have hstart := htext.trans c.le_skipTrivia
      refine ⟨?_, ih (hstart.trans (hforward _ _ _ hfirst).1.le)⟩
      cases hfirst with
      | run hword _ _ h =>
          exact hrun (hstart.trans (Cursor.le_advance (Scan.inline_word hword).le_length)) h
      | _ => exact trivial
  | @error _ c _ _ _ _ _ hnode _ ih =>
      exact ⟨trivial, ih ((htext.trans c.le_skipTrivia).trans hnode.placed.le)⟩

/-- The macro commands among arguments are sheltered, whatever room for nesting was left. -/
theorem ArgumentsAt.sheltered (room : Nat) (inMacro : Bool) :
    ArgumentsSheltered text inMacro (ArgumentsAt room inMacro) := by
  intro c args d htext h
  induction room generalizing inMacro c args d with
  | zero =>
      exact ArgumentListAt.sheltered (fun _ _ _ h => (h.placed fun _ _ _ _ h => h.elim).forward)
        (fun _ h => h.elim) htext h
  | succ room ih =>
      have hplaced := ArgumentsAt.argumentsPlaced room
      exact ArgumentListAt.sheltered
        (fun _ _ _ h => (h.placed fun _ _ _ _ h => h.within hplaced).forward)
        (fun htext h => h.sheltered (fun inMacro => ih inMacro) htext) htext h

/-- The macro commands in a statement are sheltered. -/
theorem StatementAt.sheltered {room : Nat} {statement : Statement}
    (htext : Cursor.start text ≤ c) (h : StatementAt (ArgumentsAt room) c statement d) :
    statement.Sheltered text := by
  cases h with
  | comment | error => exact trivial
  | command h => exact h.sheltered (ArgumentsAt.sheltered room false) htext
  | macroCommand h => exact h.sheltered (ArgumentsAt.sheltered room true) htext

/-- The macro commands in each statement of a document are sheltered. -/
theorem StatementsAt.sheltered {room : Nat} {statements : List Statement}
    (htext : Cursor.start text ≤ c) (h : StatementsAt (ArgumentsAt room) c statements) :
    ∀ statement ∈ statements, statement.Sheltered text := by
  induction h with
  | nil => exact List.forall_mem_nil _
  | @newline c _ hpeek _ ih =>
      exact ih (htext.trans (c.le_skipTrivia.trans
        (Cursor.le_advance_of_peek hpeek)))
  | @cons c _ _ _ hline h _ ih =>
      have hstart := htext.trans c.le_skipTrivia
      have hplaced := h.forward (ArgumentsAt.argumentsPlaced room) hline
      exact List.forall_mem_cons.mpr ⟨h.sheltered hstart, ih (hstart.trans hplaced.1.le)⟩

/-! ### All nodes -/

/-- An argument that has been read has its shape. -/
theorem ArgumentAt.shaped {room : Nat} {run : Cursor → Cursor → RunClause → Cursor → Prop}
    {inMacro : Bool} {argument : Argument} (h : ArgumentAt room run inMacro c argument d) :
    argument.Shaped := by
  cases h with
  | path h => exact h.shaped
  | keyword _ htrue hfalse => exact ⟨htrue, hfalse⟩
  | _ => trivial

/-- A node that is read from a text has its shape. -/
theorem Node.ReadFrom.shaped {node : Node} (h : node.ReadFrom (.start text)) :
    node.Shaped text := by
  cases node with
  | command node =>
      obtain ⟨_, _, _, _, -, h, hnone⟩ := h
      exact ⟨by simpa using hnone, h.runStandsLast⟩
  | macroCommand node =>
      rcases h with ⟨_, _, _, htext, h⟩ | ⟨_, _, _, _, _, -, h, hany, rfl⟩
      · exact ⟨h.runStandsLast, fun hstarts => absurd (h.startsWith htext) hstarts⟩
      · exact ⟨h.runStandsLast, fun _ => hany⟩
  | argument node =>
      rcases h with ⟨_, rfl⟩ | ⟨_, _, _, _, _, -, h⟩
      · trivial
      · exact h.shaped
  | list node =>
      obtain ⟨_, _, _, -, h⟩ := h
      exact h.items_ne
  | compound node =>
      obtain ⟨_, _, _, -, h⟩ := h
      exact h.pairs_ne_nil
  | interpolated node =>
      obtain ⟨_, _, _, -, hstart, h⟩ := h
      exact ⟨h.interpolations_ne_nil hstart, h.fragments_isChain⟩
  | _ => trivial

/-- The statements of a tolerant run stand in the text and are what their first characters make
them. -/
theorem Document.statements_fit {options : ParseOptions} {document : Document} {log : List Event}
    {next : Cursor} (hrun : Document.run .tolerant options text = .done document log next) :
    ∀ statement ∈ document.statements,
      ∃ x, statement.span.StartsWith text x ∧ statement.Fits x := by
  rw [Document.run, Parser.document_run] at hrun
  obtain ⟨found, _, _, _, hfound, hdocument, -⟩ := Outcome.andThen_eq_done hrun
  obtain ⟨rfl, -⟩ := Outcome.done.inj hdocument
  intro statement hmem
  obtain ⟨a, b, x, htext, hlt, hspan, hpeek, hfits⟩ :=
    Parser.statements_fit le_rfl hfound statement hmem
  exact ⟨x, Span.startsWith_of_peek htext hlt hspan hpeek, hfits⟩

/-- The tolerant parse of a text ends with a document that has the shape of one. The document of
a strict parse, if there is one, has it too. -/
theorem Document.shaped_of_parse (text : String) (options : ParseOptions) :
    (∃ result, Document.parseTolerant text options = .ok result ∧
      result.document.Shaped text) ∧
    ∀ document, Document.parse text options = .ok (.ok document) → document.Shaped text := by
  have hlockstep := Document.run_lockstep text options
  obtain ⟨document, log, next, hrun, hstatements⟩ := Document.exists_run_tolerant text options
  have hshaped : document.Shaped text :=
    ⟨Document.statements_fit hrun,
      fun node hnode => (hstatements.nodes_readFrom le_rfl node hnode).shaped,
      hstatements.sheltered le_rfl⟩
  refine ⟨⟨⟨document, diagnosticsOf log⟩, by rw [Document.parseTolerant, hrun], hshaped⟩, ?_⟩
  intro strict hstrict
  rw [hrun] at hlockstep
  rw [Document.parse] at hstrict
  generalize Document.run .strict options text = outcome at hlockstep hstrict
  cases hlockstep with
  | done =>
      obtain rfl := Except.ok.inj (Except.ok.inj hstrict)
      exact hshaped
  | recovered => cases Except.ok.inj hstrict

end Mcfunction
