import Mcfunction.Proofs.Placeholders.Nodes
import Mcfunction.Proofs.Reading.Placed
import Mcfunction.Proofs.Token.Walk

/-!
# Walks along What Is Read

Between two places where the grammar sees a piece of a tree, a walk leads from the one to the
other, and its marks are those of the nodes of the piece, in order. What a placeholder stands for
can be any text, so nothing is said of a piece with placeholders in it.

## Main results

* `ValueAt.marked`, `ArgumentsAt.marked`: the marks of values and of arguments.
* `CommandAt.marked`, `MacroCommandAt.marked`: those of commands.
-/

namespace Mcfunction

variable {c d e : Cursor} {n room : Nat}

/-- If no placeholder is among the nodes, a walk from the one place to the other has their
marks. -/
def Marked (c : Cursor) (nodes : List Node) (d : Cursor) : Prop :=
  placeholders nodes = [] → Walk false c (nodes.flatMap Node.marks) d

namespace Marked

variable {node : Node} {nodes nodes' : List Node}

/-- A walk with the marks of all nodes has those of nodes without placeholders. -/
theorem of_walk (h : Walk false c (nodes.flatMap Node.marks) d) : Marked c nodes d :=
  fun _ => h

/-- Marked texts in a row are marked by the nodes of both. -/
theorem append (h : Marked c nodes d) (h' : Marked d nodes' e) : Marked c (nodes ++ nodes') e := by
  intro hnone
  rw [placeholders_append, List.append_eq_nil_iff] at hnone
  rw [List.flatMap_append]
  exact (h hnone.1).trans (h' hnone.2)

/-- A node that has no mark of its own. -/
theorem cons (hmarks : node.marks = []) (h : Marked c nodes d) : Marked c (node :: nodes) d := by
  intro hnone
  rw [List.flatMap_cons, hmarks]
  exact h (List.append_eq_nil_iff.mp ((placeholders_append [node] nodes).symm.trans hnone)).2

/-- Text without marks before what is marked. -/
theorem after (h : Marked d nodes e) (hgap : Walk false c [] d) : Marked c nodes e :=
  fun hnone => hgap.trans (h hnone)

/-- Text without marks behind what is marked. -/
theorem before (h : Marked c nodes d) (hgap : Walk false d [] e) : Marked c nodes e := by
  intro hnone
  have hwalk := (h hnone).trans hgap
  rwa [List.append_nil] at hwalk

end Marked

/-! ### Leaves -/

/-- A quoted string has a quote. -/
theorem quoteAt_ne_bare (c : Cursor) : Parser.quoteAt c ≠ .bare := by
  unfold Parser.quoteAt
  split <;> simp

/-- A quoted string. -/
theorem quotedString_walk {q : Scan.Quoted} (hstart : Scan.startsQuoted c.rest)
    (h : Scan.quoted c.rest = .ok q) :
    Walk false c (c.quotedString q).marks (c.advance q.count) := by
  have hmarks : (c.quotedString q).marks = [⟨.string, c.spanTo (c.advance q.count)⟩] :=
    if_neg (quoteAt_ne_bare c)
  rw [hmarks]
  exact .string rfl hstart h (.refl _)

/-- An interpolation without errors is walked over in one step. -/
theorem interpolation_walk (hstart : Scan.startsInterpolation c.rest)
    (h : Scan.interpolation c.rest = .ok n) :
    Walk false c [⟨.interpolation, c.spanTo (c.advance n)⟩] (c.advance n) :=
  .interpolation rfl hstart h (.refl _)

/-- The interpolations of a bare macro argument are its marks. -/
theorem FragmentsAt.walk {inKey : Bool} {fragments : List Fragment}
    (h : FragmentsAt inKey c fragments d) (span : Span) :
    Walk false c (Interpolated.mk fragments .bare span).marks d := by
  induction h with
  | nil => exact .refl _
  | interpolation hstart hok _ ih => exact (interpolation_walk hstart hok).trans ih
  | literal _ hfragment _ ih => exact (Walk.fragment hfragment).trans ih

/-- A macro argument is walked over with its marks. -/
theorem InterpolatedAt.walk {inKey : Bool} {argument : Interpolated}
    (h : InterpolatedAt inKey c argument d) : Walk false c argument.marks d := by
  cases h with
  | @quoted q fragments hstart hok =>
      have hmarks : (Interpolated.mk fragments (Parser.quoteAt c)
          (c.spanTo (c.advance q.count))).marks = [⟨.string, c.spanTo (c.advance q.count)⟩] :=
        if_neg (quoteAt_ne_bare c)
      rw [hmarks]
      exact .string rfl hstart hok (.refl _)
  | bare _ _ h => exact h.walk _

/-- A node with marks of its own and no others after it. -/
theorem Marked.single {node : Node} (h : Walk false c node.marks d) : Marked c [node] d := by
  refine .of_walk ?_
  rwa [List.flatMap_singleton]

/-- A key is walked over with its marks. -/
theorem KeyAt.marked {key : NbtKey} (h : KeyAt c key d) : Marked c key.nodes d := by
  cases h with
  | interpolated _ h => exact .cons rfl (.single h.walk)
  | quoted _ hstart hok => exact .cons rfl (.single (quotedString_walk hstart hok))
  | bare _ _ hword => exact .cons rfl (.single (.token (Scan.taken_word hword)))

/-! ### Containers -/

/-- The elements of a container are marked if each element is. -/
theorem ElementsAt.marked {α : Type} {element : Cursor → α → Cursor → Prop} {closer : Char}
    {nodes : α → List Node} {values : List α} (hcloser : Scan.isSpecial closer = false)
    (helement : ∀ {c value d}, element c value d → Marked c (nodes value) d)
    (h : ElementsAt element closer c values d) : Marked c (values.flatMap nodes) d := by
  induction h with
  | @last c d value hvalue hpeek =>
      rw [List.flatMap_singleton]
      exact (helement hvalue).before ((Walk.skipTrivia false d).trans (.peek hpeek hcloser))
  | @next c d _ _ _ hvalue hpeek _ ih =>
      rw [List.flatMap_cons]
      have hcomma := (Walk.skipTrivia false d).trans (.peek hpeek rfl)
      exact ((helement hvalue).before (hcomma.trans (.skipTrivia false _))).append ih

/-- The signs of pairs start neither strings nor interpolations. -/
theorem isSpecial_of_ofChar? {x : Char} {operator : PairOperator}
    (h : PairOperator.ofChar? x = some operator) : Scan.isSpecial x = false := by
  unfold PairOperator.ofChar? at h
  split at h <;> first | rfl | cases h

/-- A pair is marked if its value is. -/
theorem PairAt.marked {value : Cursor → NbtValue → Cursor → Prop} {pair : NbtPair}
    (hvalue : ∀ {c inner d}, value c inner d → Marked c inner.nodes d)
    (h : PairAt value c pair d) : Marked c pair.nodes d := by
  obtain ⟨hkey, hoperator, hinner⟩ := h
  obtain ⟨x, hpeek, hx⟩ := Option.bind_eq_some_iff.mp hoperator
  have hmark := (Walk.skipTrivia false _).trans (.peek hpeek (isSpecial_of_ofChar? hx))
  have hkey := hkey.marked.before (hmark.trans (.skipTrivia false _))
  exact .cons rfl (hkey.append (hvalue hinner))

/-- An opening bracket and the trivia after it. -/
theorem Marked.opened {x : Char} {nodes : List Node} (hpeek : c.peek = some x)
    (hx : Scan.isSpecial x = false) (h : Marked (c.advance 1).skipTrivia nodes d) :
    Marked c nodes d :=
  h.after ((Walk.peek hpeek hx).trans (.skipTrivia false _))

/-- A list is marked if its values are. -/
theorem ListOfAt.marked {value : Cursor → NbtValue → Cursor → Prop} {list : NbtList}
    (hvalue : ∀ {c inner d}, value c inner d → Marked c inner.nodes d)
    (h : ListOfAt value c list d) : Marked c list.nodes d := by
  cases h with
  | empty hopen hclose =>
      exact .cons rfl (.opened hopen rfl (.of_walk (.peek hclose rfl)))
  | pairs hopen _ h =>
      refine .cons rfl (.opened hopen rfl ?_)
      rw [NbtItems.nodes, NbtPair.allNodes_eq_flatMap]
      exact h.marked rfl fun h => h.marked hvalue
  | values hopen _ h =>
      refine .cons rfl (.opened hopen rfl ?_)
      rw [NbtItems.nodes, NbtValue.allNodes_eq_flatMap]
      exact h.marked rfl hvalue

/-- A compound is marked if its values are. -/
theorem CompoundOfAt.marked {value : Cursor → NbtValue → Cursor → Prop} {compound : NbtCompound}
    (hvalue : ∀ {c inner d}, value c inner d → Marked c inner.nodes d)
    (h : CompoundOfAt value c compound d) : Marked c compound.nodes d := by
  obtain ⟨hopen, h⟩ := h
  refine .cons rfl (.opened hopen rfl ?_)
  rw [NbtPair.allNodes_eq_flatMap]
  exact h.marked rfl fun h => h.marked hvalue

/-- A value is marked if lists and compounds are. -/
theorem ValueOfAt.marked {list : Cursor → NbtList → Cursor → Prop}
    {compound : Cursor → NbtCompound → Cursor → Prop} {value : NbtValue}
    (hlist : ∀ {c inner d}, list c inner d → Marked c inner.nodes d)
    (hcompound : ∀ {c inner d}, compound c inner d → Marked c inner.nodes d)
    (h : ValueOfAt list compound c value d) : Marked c value.nodes d := by
  cases h with
  | interpolated _ h => exact .cons rfl (.single h.walk)
  | quoted _ hstart hok => exact .cons rfl (.single (quotedString_walk hstart hok))
  | list h => exact .cons rfl (hlist h)
  | compound h => exact .cons rfl (hcompound h)
  | error => rintro ⟨⟩
  | resource hspace hpath =>
      exact .cons rfl (.single (.solid (Scan.taken_location hspace hpath)))
  | number hnumber =>
      exact .single (.token (Scan.taken_suffixedNumber (Scan.wholeNumber_eq_some hnumber)))
  | boolean hword => exact .single (.token (Scan.taken_word hword))
  | word hword => exact .cons rfl (.single (.token (Scan.taken_word hword)))

/-- By induction on the levels that are left. -/
theorem ValueAt.marked {value : NbtValue} (h : ValueAt room c value d) :
    Marked c value.nodes d := by
  induction room generalizing c value d with
  | zero => exact ValueOfAt.marked (fun h => h.elim) (fun h => h.elim) h
  | succ room ih => exact ValueOfAt.marked (fun h => h.marked ih) (fun h => h.marked ih) h

/-- A list is marked, whatever room for nesting was left. -/
theorem ListAt.marked {list : NbtList} (h : ListAt room c list d) : Marked c list.nodes d := by
  cases room with
  | zero => exact h.elim
  | succ room => exact ListOfAt.marked ValueAt.marked h

/-- A compound is marked, whatever room for nesting was left. -/
theorem CompoundAt.marked {compound : NbtCompound} (h : CompoundAt room c compound d) :
    Marked c compound.nodes d := by
  cases room with
  | zero => exact h.elim
  | succ room => exact CompoundOfAt.marked ValueAt.marked h

/-! ### Paths and selectors -/

/-- The suffixes of a key are marked. -/
theorem SuffixesAt.marked {suffixes : List PathSuffix} (h : SuffixesAt room c suffixes d) :
    Marked c (suffixes.flatMap PathSuffix.nodes) d := by
  induction h with
  | nil => exact .of_walk (.refl _)
  | index h _ ih => exact h.marked.append ih
  | filter h _ ih => exact h.marked.append ih

/-- The name of the first segment stands before the place from which the suffixes are read. -/
theorem SegmentsAt.marked {start : Cursor} {name : NbtKey} {segments : List PathSegment}
    (hname : Marked start name.nodes c) (h : SegmentsAt room start name c segments d) :
    Marked start (segments.flatMap PathSegment.nodes) d := by
  induction h with
  | last h _ =>
      rw [List.flatMap_singleton]
      exact .cons rfl (hname.append h.marked)
  | next h hpoint hkey _ ih =>
      rw [List.flatMap_cons]
      have hsegment := hname.append h.marked
      exact (hsegment.cons rfl).append ((ih hkey.marked).after (.peek hpoint rfl))

/-- A path is marked. -/
theorem PathAt.marked {path : NbtPath} (h : PathAt room c path d) :
    Marked c (path.segments.flatMap PathSegment.nodes) d := by
  obtain ⟨hkey, -, h⟩ := h
  exact h.marked hkey.marked

/-- The `@` of a selector and its letter. -/
theorem target_walk {target : SelectorTarget} (hat : c.peek = some '@')
    (htarget : (c.advance 1).peek.bind SelectorTarget.ofChar? = some target) :
    Walk false c [] (c.advance 2) := by
  obtain ⟨x, hpeek, hx⟩ := Option.bind_eq_some_iff.mp htarget
  have hletter : Scan.isSpecial x = false := by
    unfold SelectorTarget.ofChar? at hx
    split at hx <;> first | rfl | cases hx
  have hwalk := (Walk.peek hat rfl).trans (.peek hpeek hletter)
  rwa [Cursor.advance_advance] at hwalk

/-- A selector is marked. -/
theorem SelectorAt.marked {selector : Selector} (h : SelectorAt room c selector d) :
    Marked c selector.nodes d := by
  cases h with
  | target hat htarget => exact .cons rfl (.of_walk (target_walk hat htarget))
  | filtered hat htarget h => exact .cons rfl (h.marked.after (target_walk hat htarget))

/-! ### Arguments -/

/-- An argument is marked if run clauses are. -/
theorem ArgumentAt.marked {run : Cursor → Cursor → RunClause → Cursor → Prop} {inMacro : Bool}
    {argument : Argument}
    (hrun : ∀ {start c clause d}, run start c clause d → Marked c clause.nodes d)
    (h : ArgumentAt room run inMacro c argument d) : Marked c argument.nodes d := by
  cases h with
  | interpolated _ _ h => exact .cons rfl (.single h.walk)
  | coordinates h =>
      exact .cons rfl (.of_walk (.leaf (Scan.taken_coordinates h)))
  | quoted _ hstart hok => exact .cons rfl (.single (quotedString_walk hstart hok))
  | path h => exact .cons rfl h.marked
  | selector h => exact .cons rfl h.marked
  | list h => exact .cons rfl h.marked
  | compound h => exact .cons rfl h.marked
  | fakePlayer h =>
      obtain ⟨name, k, hrest, rfl, htaken⟩ := Scan.fakePlayer_taken h
      have hname : Scan.Taken Scan.isTokenChar (c.advance 1).rest k := by
        rwa [Cursor.advance_rest, hrest]
      have hwalk := (Walk.peek (Cursor.peek_of_cons hrest) rfl).trans (.token hname)
      rw [Cursor.advance_advance, Nat.add_comm] at hwalk
      exact .single hwalk
  | resource hspace hpath =>
      exact .cons rfl (.single (.solid (Scan.taken_location hspace hpath)))
  | number hnumber =>
      exact .single (.token (Scan.taken_suffixedNumber (Scan.wholeNumber_eq_some hnumber)))
  | boolean hword => exact .single (.token (Scan.taken_word hword))
  | run hword _ _ h => exact .cons rfl ((hrun h).after (.token (Scan.taken_word hword)))
  | keyword hword => exact .single (.token (Scan.taken_word hword))

/-- Arguments are marked if each of them is. -/
theorem ArgumentListAt.marked {argument : Cursor → Argument → Cursor → Prop} {afterError : Bool}
    {arguments : List Argument}
    (hargument : ∀ {c value d}, argument c value d → Marked c value.nodes d)
    (h : ArgumentListAt argument afterError c arguments d) :
    Marked c (Argument.allNodes arguments) d := by
  induction h with
  | nil => exact .of_walk (.refl _)
  | cons _ _ hfirst _ ih => exact ((hargument hfirst).after (.skipTrivia false _)).append ih
  | error => rintro ⟨⟩

/-! ### Commands -/

/-- The marks of arguments between two places are those of their nodes. -/
def ArgumentsMarked (arguments : Cursor → List Argument → Cursor → Prop) : Prop :=
  ∀ {c args d}, arguments c args d → Marked c (Argument.allNodes args) d

/-- The arguments of a command are marked behind its name. -/
theorem CommandAt.arguments_marked {arguments : Cursor → List Argument → Cursor → Prop}
    {command : Command} (harguments : ArgumentsMarked arguments)
    (h : CommandAt arguments c command d) :
    Marked c (Argument.allNodes command.arguments) d := by
  obtain ⟨hname, h⟩ := h
  exact (harguments h).after (.token (Scan.taken_commandName hname))

/-- A command is marked if its arguments are. -/
theorem CommandAt.marked {arguments : Cursor → List Argument → Cursor → Prop}
    {command : Command} (harguments : ArgumentsMarked arguments)
    (h : CommandAt arguments c command d) : Marked c command.nodes d := by
  have hmarked := h.arguments_marked harguments
  obtain ⟨name, args, span⟩ := command
  exact .cons rfl (.cons rfl hmarked)

/-- A command after `run` has the same marks if it counts as a macro command. -/
theorem CommandAt.subcommandOf_marked {arguments : Cursor → List Argument → Cursor → Prop}
    {command : Command} (harguments : ArgumentsMarked arguments)
    (h : CommandAt arguments c command d) :
    Marked c (Parser.subcommandOf command).nodes d := by
  unfold Parser.subcommandOf
  split
  · exact .cons rfl (.cons rfl (h.arguments_marked harguments))
  · exact h.marked harguments

/-- The name of a macro command is walked over with its marks. -/
theorem MacroNameAt.walk {name : MacroName} (h : MacroNameAt c name d) :
    Walk false c name.marks d := by
  cases h with
  | literal hname => exact .token (Scan.taken_commandName hname)
  | interpolation hstart hok => exact interpolation_walk hstart hok

/-- The `$` of a macro command starts no interpolation: its name would have to start with the
parenthesis. -/
theorem MacroCommandAt.startsOrdinary {arguments : Cursor → List Argument → Cursor → Prop}
    {command : MacroCommand} (h : MacroCommandAt arguments c command d) :
    Scan.startsOrdinary c.rest := by
  obtain ⟨hdollar, hname, -⟩ := h
  obtain ⟨tail, hrest⟩ := List.head?_eq_some_iff.mp hdollar
  have hparen : ∀ body, tail ≠ '(' :: body := by
    rintro body rfl
    have hnext : (c.advance 1).rest = '(' :: body := by rw [Cursor.advance_rest, hrest]; rfl
    have hstay : (c.advance 1).skipTrivia = c.advance 1 := by
      have htrivia : Scan.trivia (c.advance 1).rest = 0 := by
        rw [hnext]
        exact Scan.repeated_of_step_zero rfl
      rw [Cursor.skipTrivia, htrivia]
      rfl
    rw [hstay] at hname
    cases hname with
    | literal hname =>
        rw [hnext] at hname
        cases hname
    | interpolation hstart =>
        rw [hnext] at hstart
        cases hstart
  rw [hrest, Scan.startsOrdinary_cons]
  refine ⟨by decide, rfl, ?_, rfl⟩
  rw [Bool.eq_false_iff, ne_eq, Scan.startsInterpolation_iff]
  rintro ⟨body, heq⟩
  exact hparen body (List.cons.inj heq).2

/-- What follows the `$` of a macro command. -/
theorem MacroCommandAt.marked {arguments : Cursor → List Argument → Cursor → Prop}
    {command : MacroCommand} (harguments : ArgumentsMarked arguments)
    (h : MacroCommandAt arguments c command d) : Marked (c.advance 1) command.nodes d := by
  obtain ⟨-, hname, h⟩ := h
  intro hnone
  rw [MacroCommand.nodes, placeholders_cons _ rfl, placeholders_cons _ rfl] at hnone
  exact ((Walk.skipTrivia false _).trans hname.walk).trans (harguments h hnone)

/-- A run clause is marked if its arguments are. -/
theorem RunClauseAt.marked {arguments : Bool → Cursor → List Argument → Cursor → Prop}
    {inMacro : Bool} {start : Cursor} {clause : RunClause}
    (harguments : ∀ inMacro, ArgumentsMarked (arguments inMacro))
    (h : RunClauseAt arguments inMacro start c clause d) : Marked c clause.nodes d := by
  cases h with
  | command h =>
      have hmarked := h.subcommandOf_marked (harguments inMacro)
      exact .cons rfl (hmarked.after (.skipTrivia false c))
  | macroCommand h =>
      have hdollar := (Walk.skipTrivia false c).trans (.one h.startsOrdinary)
      exact .cons rfl ((h.marked (harguments true)).after hdollar)

/-- By induction on the levels that are left. -/
theorem ArgumentsAt.marked (room : Nat) (inMacro : Bool) :
    ArgumentsMarked (ArgumentsAt room inMacro) := by
  induction room generalizing inMacro with
  | zero => exact ArgumentListAt.marked fun h => h.marked fun h => h.elim
  | succ room ih => exact ArgumentListAt.marked fun h => h.marked fun h => h.marked ih

end Mcfunction
