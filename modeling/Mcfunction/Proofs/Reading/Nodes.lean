import Mcfunction.Proofs.Placeholders.Nodes
import Mcfunction.Proofs.Parser.Document

/-!
# The Nodes of What Is Read

The grammar says what a whole tree is. For what holds of each of its nodes it is enough to know
how that node was read: `Node.ReadFrom` keeps the relation of the grammar that the node alone
meets, at some place of the text, and forgets the tree around it. So the walk over the tree is
made once, here, and a property of all nodes is proved by cases on the kind of node.

The kinds of node that stand for one of their forms, and those with nothing to tell but their
place, keep no relation.

## Main results

* `StatementsAt.nodes_readFrom`: all nodes of the statements of a text are read from it.
-/

namespace Mcfunction

/-- How a node was read at some place from `origin` on. -/
def Node.ReadFrom (origin : Cursor) : Node → Prop
  | .command node => ∃ room inMacro c d, origin ≤ c ∧
      CommandAt (ArgumentsAt room inMacro) c node d ∧
      node.arguments.any Parser.isInterpolated = false
  | .macroCommand node =>
      (∃ room c d, origin ≤ c ∧ MacroCommandAt (ArgumentsAt room true) c node d) ∨
      ∃ room inMacro c d plain, origin ≤ c ∧ CommandAt (ArgumentsAt room inMacro) c plain d ∧
        plain.arguments.any Parser.isInterpolated ∧
        node = ⟨.literal plain.name, plain.arguments, plain.span⟩
  | .comment node => ∃ c, origin ≤ c ∧ c.peek = some '#' ∧ node = c.comment
  | .argument node => (∃ placeholder, node = .error placeholder) ∨
      ∃ room run inMacro c d, origin ≤ c ∧ ArgumentAt room run inMacro c node d
  | .string node => ∃ c, origin ≤ c ∧
      ((∃ q, Scan.startsQuoted c.rest ∧ Scan.quoted c.rest = .ok q ∧ q.interpolated = false ∧
          node = c.quotedString q) ∨
        ∃ n, Scan.word c.rest = some n ∧ node = c.bareString n)
  | .resource node => ∃ c space path, origin ≤ c ∧
      Scan.resourceNamespace c.rest = some space ∧
      Scan.path (c.rest.drop (space + 1)) = some path ∧ node = c.resourceLocation space path
  | .selector node => ∃ room c d, origin ≤ c ∧ SelectorAt room c node d
  | .list node => ∃ inner c d, origin ≤ c ∧ ListOfAt inner c node d
  | .compound node => ∃ inner c d, origin ≤ c ∧ CompoundOfAt inner c node d
  | .value node => ∃ lists compounds c d, origin ≤ c ∧ ValueOfAt lists compounds c node d
  | .interpolated node => ∃ inKey c d, origin ≤ c ∧ Scan.startsInterpolated inKey c.rest ∧
      InterpolatedAt inKey c node d
  | .statement _ | .name _ | .error _ | .part _ | .pair _ | .key _ | .segment _
  | .subcommand _ => True

/-- All of the nodes were read from `origin` on. -/
def ReadFrom (origin : Cursor) (nodes : List Node) : Prop :=
  ∀ node ∈ nodes, node.ReadFrom origin

variable {origin c d : Cursor}

/-- A quoted string that starts no interpolated argument has no interpolation. -/
theorem Scan.Quoted.not_interpolated {inKey : Bool} {chars : List Char} {q : Scan.Quoted}
    (hplain : Scan.startsInterpolated inKey chars = false) (hquoted : Scan.startsQuoted chars)
    (hok : Scan.quoted chars = .ok q) : q.interpolated = false := by
  rwa [Scan.startsInterpolated, if_pos hquoted, hok] at hplain

namespace ReadFrom

variable {node : Node} {nodes nodes' : List Node}

/-- No nodes have been read anywhere. -/
theorem nil : ReadFrom origin [] :=
  List.forall_mem_nil _

/-- A node and some others have been read behind a place if each of them has. -/
theorem cons (h : node.ReadFrom origin) (hnodes : ReadFrom origin nodes) :
    ReadFrom origin (node :: nodes) :=
  List.forall_mem_cons.mpr ⟨h, hnodes⟩

/-- Two lists of nodes have been read behind a place if both have. -/
theorem append (h : ReadFrom origin nodes) (h' : ReadFrom origin nodes') :
    ReadFrom origin (nodes ++ nodes') :=
  List.forall_mem_append.mpr ⟨h, h'⟩

/-- The nodes of several parts have been read behind a place if those of each part have. -/
theorem flatMap {α : Type} {parts : List α} {nodes : α → List Node}
    (h : ∀ part ∈ parts, ReadFrom origin (nodes part)) :
    ReadFrom origin (parts.flatMap nodes) := by
  intro node hnode
  obtain ⟨part, hpart, hnode⟩ := List.mem_flatMap.mp hnode
  exact h part hpart node hnode

end ReadFrom

/-! ### Containers -/

/-- The nodes of a key have been read behind its start. -/
theorem KeyAt.nodes_readFrom {key : NbtKey} (horigin : origin ≤ c) (h : KeyAt c key d) :
    ReadFrom origin key.nodes := by
  cases h with
  | interpolated hstart h => exact .cons trivial (.cons ⟨_, _, _, horigin, hstart, h⟩ .nil)
  | quoted hplain hquoted hok =>
      have hnone := Scan.Quoted.not_interpolated hplain hquoted hok
      exact .cons trivial (.cons ⟨_, horigin, .inl ⟨_, hquoted, hok, hnone, rfl⟩⟩ .nil)
  | bare _ _ hword => exact .cons trivial (.cons ⟨_, horigin, .inr ⟨_, hword, rfl⟩⟩ .nil)

/-- Each of the elements stands somewhere from the first place on. -/
theorem ElementsAt.exists_mem {α : Type} {element : Cursor → α → Cursor → Prop} {closer : Char}
    {values : List α} (helement : Forward element) (h : ElementsAt element closer c values d) :
    ∀ value ∈ values, ∃ a b, c ≤ a ∧ element a value b := by
  induction h with
  | last hvalue _ => exact List.forall_mem_singleton.mpr ⟨_, _, le_rfl, hvalue⟩
  | @next c d e _ _ hvalue hpeek _ ih =>
      have hcomma : d.skipTrivia ≤ d.skipTrivia.advance 1 :=
        Cursor.le_advance_of_peek hpeek
      have hnext : c ≤ (d.skipTrivia.advance 1).skipTrivia :=
        (helement _ _ _ hvalue).1.le.trans
          ((d.le_skipTrivia.trans hcomma).trans (Cursor.le_skipTrivia _))
      refine List.forall_mem_cons.mpr ⟨⟨_, _, le_rfl, hvalue⟩, fun value hmem => ?_⟩
      obtain ⟨a, b, hle, hvalue⟩ := ih value hmem
      exact ⟨a, b, hnext.trans hle, hvalue⟩

/-- The nodes of the values between two places are read from `origin` on if the values are. -/
def ValuesReadFrom (origin : Cursor) (value : Cursor → NbtValue → Cursor → Prop) : Prop :=
  ∀ {c inner d}, origin ≤ c → value c inner d → ReadFrom origin inner.nodes

/-- The nodes of a pair have been read behind its start if those of its value have. -/
theorem PairAt.nodes_readFrom {value : Cursor → NbtValue → Cursor → Prop} {pair : NbtPair}
    (hvalue : ValuesReadFrom origin value) (horigin : origin ≤ c) (h : PairAt value c pair d) :
    ReadFrom origin pair.nodes := by
  obtain ⟨hkey, hoperator, hinner⟩ := h
  obtain ⟨x, hpeek, -⟩ := Option.bind_eq_some_iff.mp hoperator
  have hmark := Cursor.le_advance_of_peek hpeek
  have hnext := hkey.placed.le.trans
    (((Cursor.le_skipTrivia _).trans hmark).trans (Cursor.le_skipTrivia _))
  exact .cons trivial
    (.append (hkey.nodes_readFrom horigin) (hvalue (horigin.trans hnext) hinner))

/-- The elements between the brackets that open at the cursor. -/
theorem ElementsAt.readFrom_flatMap {α : Type} {element : Cursor → α → Cursor → Prop}
    {opener closer : Char} {values : List α} {nodes : α → List Node}
    (hforward : Forward element)
    (helement : ∀ {c value d}, origin ≤ c → element c value d → ReadFrom origin (nodes value))
    (horigin : origin ≤ c) (hopen : c.peek = some opener)
    (h : ElementsAt element closer (c.advance 1).skipTrivia values d) :
    ReadFrom origin (values.flatMap nodes) := by
  have hnext : origin ≤ (c.advance 1).skipTrivia :=
    (horigin.trans (Cursor.le_advance_of_peek hopen)).trans
      (Cursor.le_skipTrivia _)
  refine .flatMap fun value hmem => ?_
  obtain ⟨a, b, hle, hvalue⟩ := h.exists_mem hforward value hmem
  exact helement (hnext.trans hle) hvalue

/-- The nodes of a list have been read behind its start if those of its values have. -/
theorem ListOfAt.nodes_readFrom {value : Cursor → NbtValue → Cursor → Prop} {list : NbtList}
    (hforward : Forward value) (hvalue : ValuesReadFrom origin value) (horigin : origin ≤ c)
    (h : ListOfAt value c list d) : ReadFrom origin list.nodes := by
  have hlist : (Node.list list).ReadFrom origin := ⟨value, c, d, horigin, h⟩
  obtain ⟨items, span⟩ := list
  refine .cons hlist ?_
  cases h with
  | empty => exact .nil
  | pairs hopen _ h =>
      rw [NbtItems.nodes, NbtPair.allNodes_eq_flatMap]
      exact h.readFrom_flatMap (fun _ _ _ h => (h.placed hforward).forward)
        (fun horigin h => h.nodes_readFrom hvalue horigin) horigin hopen
  | values hopen _ h =>
      rw [NbtItems.nodes, NbtValue.allNodes_eq_flatMap]
      exact h.readFrom_flatMap hforward hvalue horigin hopen

/-- The nodes of a compound have been read behind its start if those of its values have. -/
theorem CompoundOfAt.nodes_readFrom {value : Cursor → NbtValue → Cursor → Prop}
    {compound : NbtCompound} (hforward : Forward value) (hvalue : ValuesReadFrom origin value)
    (horigin : origin ≤ c) (h : CompoundOfAt value c compound d) :
    ReadFrom origin compound.nodes := by
  have hcompound : (Node.compound compound).ReadFrom origin := ⟨value, c, d, horigin, h⟩
  obtain ⟨pairs, span⟩ := compound
  obtain ⟨hopen, h⟩ := h
  rw [NbtCompound.nodes, NbtPair.allNodes_eq_flatMap]
  exact .cons hcompound (h.readFrom_flatMap (fun _ _ _ h => (h.placed hforward).forward)
    (fun horigin h => h.nodes_readFrom hvalue horigin) horigin hopen)

/-- The nodes of a value have been read behind its start if those of lists and compounds have. -/
theorem ValueOfAt.nodes_readFrom {list : Cursor → NbtList → Cursor → Prop}
    {compound : Cursor → NbtCompound → Cursor → Prop} {value : NbtValue}
    (hlist : ∀ {c inner d}, origin ≤ c → list c inner d → ReadFrom origin inner.nodes)
    (hcompound : ∀ {c inner d}, origin ≤ c → compound c inner d → ReadFrom origin inner.nodes)
    (horigin : origin ≤ c) (h : ValueOfAt list compound c value d) :
    ReadFrom origin value.nodes := by
  have hvalue : (Node.value value).ReadFrom origin := ⟨list, compound, c, d, horigin, h⟩
  cases h with
  | interpolated hstart h => exact .cons hvalue (.cons ⟨_, _, _, horigin, hstart, h⟩ .nil)
  | quoted hplain hquoted hok =>
      have hnone := Scan.Quoted.not_interpolated hplain hquoted hok
      exact .cons hvalue (.cons ⟨_, horigin, .inl ⟨_, hquoted, hok, hnone, rfl⟩⟩ .nil)
  | list h => exact .cons hvalue (hlist horigin h)
  | compound h => exact .cons hvalue (hcompound horigin h)
  | resource hspace hpath => exact .cons hvalue (.cons ⟨_, _, _, horigin, hspace, hpath, rfl⟩ .nil)
  | word hword => exact .cons hvalue (.cons ⟨_, horigin, .inr ⟨_, hword, rfl⟩⟩ .nil)
  | error | number | boolean => exact .cons hvalue .nil

/-- The nodes of a value have been read behind its start, whatever room for nesting was left. -/
theorem ValueAt.nodes_readFrom (room : Nat) : ValuesReadFrom origin (ValueAt room) := by
  intro c value d horigin h
  induction room generalizing c value d with
  | zero => exact ValueOfAt.nodes_readFrom (fun _ h => h.elim) (fun _ h => h.elim) horigin h
  | succ room ih =>
      have hforward := ValueAt.forward room
      exact ValueOfAt.nodes_readFrom (fun horigin h => h.nodes_readFrom hforward ih horigin)
        (fun horigin h => h.nodes_readFrom hforward ih horigin) horigin h

/-- The nodes of such a list have been read behind its start. -/
theorem ListAt.nodes_readFrom {room : Nat} {list : NbtList} (horigin : origin ≤ c)
    (h : ListAt room c list d) : ReadFrom origin list.nodes := by
  cases room with
  | zero => exact h.elim
  | succ room =>
      exact ListOfAt.nodes_readFrom (ValueAt.forward room) (ValueAt.nodes_readFrom room) horigin h

/-- The nodes of such a compound have been read behind its start. -/
theorem CompoundAt.nodes_readFrom {room : Nat} {compound : NbtCompound} (horigin : origin ≤ c)
    (h : CompoundAt room c compound d) : ReadFrom origin compound.nodes := by
  cases room with
  | zero => exact h.elim
  | succ room =>
      exact CompoundOfAt.nodes_readFrom (ValueAt.forward room) (ValueAt.nodes_readFrom room)
        horigin h

/-! ### Paths and selectors -/

/-- The nodes of suffixes have been read behind their start. -/
theorem SuffixesAt.nodes_readFrom {room : Nat} {suffixes : List PathSuffix}
    (horigin : origin ≤ c) (h : SuffixesAt room c suffixes d) :
    ReadFrom origin (suffixes.flatMap PathSuffix.nodes) := by
  induction h with
  | nil => exact .nil
  | index h _ ih => exact .append (h.nodes_readFrom horigin) (ih (horigin.trans h.placed.le))
  | filter h _ ih => exact .append (h.nodes_readFrom horigin) (ih (horigin.trans h.placed.le))

/-- The nodes of the segments of a path have been read behind its start if its first key has. -/
theorem SegmentsAt.nodes_readFrom {room : Nat} {start : Cursor} {name : NbtKey}
    {segments : List PathSegment} (hname : ReadFrom origin name.nodes) (horigin : origin ≤ c)
    (h : SegmentsAt room start name c segments d) :
    ReadFrom origin (segments.flatMap PathSegment.nodes) := by
  induction h with
  | last h _ =>
      exact .append (.cons trivial (.append hname (h.nodes_readFrom horigin))) .nil
  | @next _ _ _ d _ _ _ _ _ h hpoint hkey _ ih =>
      have hnext : origin ≤ d.advance 1 :=
        (horigin.trans h.within.le).trans (Cursor.le_advance_of_peek hpoint)
      exact .append (.cons trivial (.append hname (h.nodes_readFrom horigin)))
        (ih (hkey.nodes_readFrom hnext) (hnext.trans hkey.placed.le))

/-- The nodes of a path have been read behind its start. -/
theorem PathAt.nodes_readFrom {room : Nat} {path : NbtPath} (horigin : origin ≤ c)
    (h : PathAt room c path d) : ReadFrom origin (path.segments.flatMap PathSegment.nodes) := by
  obtain ⟨hkey, -, h⟩ := h
  exact h.nodes_readFrom (hkey.nodes_readFrom horigin) (horigin.trans hkey.placed.le)

/-- The nodes of a selector have been read behind its start. -/
theorem SelectorAt.nodes_readFrom {room : Nat} {selector : Selector} (horigin : origin ≤ c)
    (h : SelectorAt room c selector d) : ReadFrom origin selector.nodes := by
  have hselector : (Node.selector selector).ReadFrom origin := ⟨room, c, d, horigin, h⟩
  cases h with
  | target => exact .cons hselector .nil
  | filtered hat htarget h =>
      exact .cons hselector (h.nodes_readFrom
        (horigin.trans (Cursor.le_advance (inline_target hat htarget).le_length)))

/-! ### Arguments -/

/-- The nodes of an argument have been read behind its start if those of run clauses have. -/
theorem ArgumentAt.nodes_readFrom {room : Nat}
    {run : Cursor → Cursor → RunClause → Cursor → Prop} {inMacro : Bool} {argument : Argument}
    (hrun : ∀ {start c clause d}, origin ≤ c → run start c clause d →
      ReadFrom origin clause.nodes)
    (horigin : origin ≤ c) (h : ArgumentAt room run inMacro c argument d) :
    ReadFrom origin argument.nodes := by
  have hargument : (Node.argument argument).ReadFrom origin :=
    .inr ⟨room, run, inMacro, c, d, horigin, h⟩
  cases h with
  | interpolated _ hstart h => exact .cons hargument (.cons ⟨_, _, _, horigin, hstart, h⟩ .nil)
  | coordinates => exact .cons hargument (List.forall_mem_map.mpr fun _ _ => trivial)
  | quoted hplain hquoted hok =>
      have hnone := Scan.Quoted.not_interpolated hplain hquoted hok
      exact .cons hargument (.cons ⟨_, horigin, .inl ⟨_, hquoted, hok, hnone, rfl⟩⟩ .nil)
  | path h => exact .cons hargument (h.nodes_readFrom horigin)
  | selector h => exact .cons hargument (h.nodes_readFrom horigin)
  | list h => exact .cons hargument (h.nodes_readFrom horigin)
  | compound h => exact .cons hargument (h.nodes_readFrom horigin)
  | resource hspace hpath =>
      exact .cons hargument (.cons ⟨_, _, _, horigin, hspace, hpath, rfl⟩ .nil)
  | run hword _ _ h =>
      exact .cons hargument
        (hrun (horigin.trans (Cursor.le_advance (Scan.inline_word hword).le_length)) h)
  | fakePlayer | number | boolean | keyword => exact .cons hargument .nil

/-- The nodes of the arguments between two places are read from `origin` on if the arguments
are. -/
def ArgumentsReadFrom (origin : Cursor) (arguments : Cursor → List Argument → Cursor → Prop) :
    Prop :=
  ∀ {c args d}, origin ≤ c → arguments c args d → ReadFrom origin (Argument.allNodes args)

/-- The nodes of arguments have been read behind their start if those of each argument have. -/
theorem ArgumentListAt.nodes_readFrom {argument : Cursor → Argument → Cursor → Prop}
    {afterError : Bool} {arguments : List Argument} (hforward : Forward argument)
    (hargument : ∀ {c value d}, origin ≤ c → argument c value d → ReadFrom origin value.nodes)
    (horigin : origin ≤ c) (h : ArgumentListAt argument afterError c arguments d) :
    ReadFrom origin (Argument.allNodes arguments) := by
  induction h with
  | nil => exact .nil
  | @cons _ c _ _ _ _ _ _ hfirst _ ih =>
      have hstart := horigin.trans c.le_skipTrivia
      exact .append (hargument hstart hfirst) (ih (hstart.trans (hforward _ _ _ hfirst).1.le))
  | @error _ c _ _ _ _ _ hnode _ ih =>
      have hstart := horigin.trans c.le_skipTrivia
      exact .append (.cons (.inl ⟨_, rfl⟩) .nil) (ih (hstart.trans hnode.placed.le))

/-- Outside macro commands no argument is interpolated. -/
theorem ArgumentListAt.any_isInterpolated {room : Nat}
    {run : Cursor → Cursor → RunClause → Cursor → Prop} {afterError : Bool}
    {arguments : List Argument}
    (h : ArgumentListAt (ArgumentAt room run false) afterError c arguments d) :
    arguments.any Parser.isInterpolated = false := by
  induction h with
  | nil => rfl
  | cons _ _ hfirst _ ih =>
      rw [List.any_cons, ih, Bool.or_false]
      cases hfirst with
      | interpolated hmacro => cases hmacro
      | _ => rfl
  | error _ _ _ ih => rw [List.any_cons, ih]; rfl

/-- Outside of macros no argument is interpolated. -/
theorem ArgumentsAt.any_isInterpolated {room : Nat} {arguments : List Argument}
    (h : ArgumentsAt room false c arguments d) :
    arguments.any Parser.isInterpolated = false := by
  cases room <;> exact ArgumentListAt.any_isInterpolated h

/-! ### Commands -/

/-- The nodes of a command's arguments have been read behind its start. -/
theorem CommandAt.arguments_readFrom {arguments : Cursor → List Argument → Cursor → Prop}
    {command : Command} (harguments : ArgumentsReadFrom origin arguments) (horigin : origin ≤ c)
    (h : CommandAt arguments c command d) :
    ReadFrom origin (Argument.allNodes command.arguments) := by
  obtain ⟨hname, h⟩ := h
  exact harguments
    (horigin.trans (Cursor.le_advance (Scan.inline_commandName hname).le_length)) h

/-- The nodes of a command without interpolated arguments have been read behind its start. -/
theorem CommandAt.nodes_readFrom {room : Nat} {inMacro : Bool} {command : Command}
    (harguments : ArgumentsReadFrom origin (ArgumentsAt room inMacro)) (horigin : origin ≤ c)
    (hnone : command.arguments.any Parser.isInterpolated = false)
    (h : CommandAt (ArgumentsAt room inMacro) c command d) : ReadFrom origin command.nodes := by
  have hcommand : (Node.command command).ReadFrom origin :=
    ⟨room, inMacro, c, d, horigin, h, hnone⟩
  obtain ⟨name, arguments, span⟩ := command
  exact .cons hcommand (.cons trivial (h.arguments_readFrom harguments horigin))

/-- The nodes of a macro command have been read behind its start. -/
theorem MacroCommandAt.nodes_readFrom {room : Nat} {command : MacroCommand}
    (harguments : ArgumentsReadFrom origin (ArgumentsAt room true)) (horigin : origin ≤ c)
    (h : MacroCommandAt (ArgumentsAt room true) c command d) :
    ReadFrom origin command.nodes := by
  have hcommand : (Node.macroCommand command).ReadFrom origin := .inl ⟨room, c, d, horigin, h⟩
  obtain ⟨hdollar, hname, h⟩ := h
  have hopen : c ≤ (c.advance 1).skipTrivia :=
    (Cursor.le_advance_of_peek hdollar).trans (Cursor.le_skipTrivia _)
  exact .cons hcommand
    (.cons trivial (harguments (horigin.trans (hopen.trans hname.placed.le)) h))

/-- The command after a `run` counts as a macro command if it has an interpolated argument. -/
theorem CommandAt.subcommandOf_readFrom {room : Nat} {inMacro : Bool} {command : Command}
    (harguments : ArgumentsReadFrom origin (ArgumentsAt room inMacro)) (horigin : origin ≤ c)
    (h : CommandAt (ArgumentsAt room inMacro) c command d) :
    ReadFrom origin (Parser.subcommandOf command).nodes := by
  unfold Parser.subcommandOf
  split
  · rename_i hany
    exact .cons (.inr ⟨room, inMacro, c, d, command, horigin, h, hany, rfl⟩)
      (.cons trivial (h.arguments_readFrom harguments horigin))
  · rename_i hany
    exact h.nodes_readFrom harguments horigin (Bool.eq_false_iff.mpr hany)

/-- The nodes of a run clause have been read behind its start. -/
theorem RunClauseAt.nodes_readFrom {room : Nat} {inMacro : Bool} {start : Cursor}
    {clause : RunClause}
    (harguments : ∀ inMacro, ArgumentsReadFrom origin (ArgumentsAt room inMacro))
    (horigin : origin ≤ c) (h : RunClauseAt (ArgumentsAt room) inMacro start c clause d) :
    ReadFrom origin clause.nodes := by
  have hstart := horigin.trans c.le_skipTrivia
  cases h with
  | command h => exact .cons trivial (h.subcommandOf_readFrom (harguments inMacro) hstart)
  | macroCommand h => exact .cons trivial (h.nodes_readFrom (harguments true) hstart)

/-- The nodes of arguments have been read behind their start, whatever room for nesting was left. -/
theorem ArgumentsAt.nodes_readFrom (room : Nat) (inMacro : Bool) :
    ArgumentsReadFrom origin (ArgumentsAt room inMacro) := by
  intro c args d horigin h
  induction room generalizing inMacro c args d with
  | zero =>
      have hforward : Forward (ArgumentAt 0 (fun _ _ _ _ => False) inMacro) :=
        fun _ _ _ h => (h.placed fun _ _ _ _ h => h.elim).forward
      exact ArgumentListAt.nodes_readFrom hforward
        (fun horigin h => h.nodes_readFrom (fun _ h => h.elim) horigin) horigin h
  | succ room ih =>
      have hforward : Forward (ArgumentAt (room + 1) (RunClauseAt (ArgumentsAt room) inMacro)
          inMacro) :=
        fun _ _ _ h =>
          (h.placed fun _ _ _ _ h => h.within (ArgumentsAt.argumentsPlaced room)).forward
      exact ArgumentListAt.nodes_readFrom hforward
        (fun horigin h => h.nodes_readFrom
          (fun horigin h => h.nodes_readFrom (fun inMacro => ih inMacro) horigin) horigin)
        horigin h

/-! ### Statements -/

/-- The nodes of a statement have been read behind its start. -/
theorem StatementAt.nodes_readFrom {room : Nat} {statement : Statement} (horigin : origin ≤ c)
    (h : StatementAt (ArgumentsAt room) c statement d) : ReadFrom origin statement.nodes := by
  cases h with
  | comment hpeek => exact .cons trivial (.cons ⟨c, horigin, hpeek, rfl⟩ .nil)
  | command h =>
      refine .cons trivial (h.nodes_readFrom (ArgumentsAt.nodes_readFrom room false) horigin ?_)
      obtain ⟨-, h⟩ := h
      exact h.any_isInterpolated
  | macroCommand h =>
      exact .cons trivial (h.nodes_readFrom (ArgumentsAt.nodes_readFrom room true) horigin)
  | error => exact .cons trivial (.cons trivial .nil)

/-- Every node of the statements from a place on is read from there on. -/
theorem StatementsAt.nodes_readFrom {room : Nat} {statements : List Statement}
    (horigin : origin ≤ c) (h : StatementsAt (ArgumentsAt room) c statements) :
    ReadFrom origin (statements.flatMap Statement.nodes) := by
  induction h with
  | nil => exact .nil
  | @newline c _ hpeek _ ih =>
      exact ih (horigin.trans (c.le_skipTrivia.trans
        (Cursor.le_advance_of_peek hpeek)))
  | @cons c _ _ _ hline h _ ih =>
      have hstart := horigin.trans c.le_skipTrivia
      have hplaced := h.forward (ArgumentsAt.argumentsPlaced room) hline
      exact .append (h.nodes_readFrom hstart) (ih (hstart.trans hplaced.1.le))

end Mcfunction
