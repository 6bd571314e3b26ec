import Mcfunction.Proofs.Reading

/-!
# Where Pieces Stand

A piece of a tree that stands between two places is not empty, does not leave its statement, and
has the span from the one place to the other.

## Main results

* `ValueAt.placed`, `ArgumentAt.placed`, `CommandAt.placed`: where values, arguments and commands
  stand.
* `ArgumentListAt.within`: arguments stay in their statement.
-/

namespace Mcfunction

/-- What stands from one place to another is not empty and stays in the statement. -/
def Forward {α : Type} (piece : Cursor → α → Cursor → Prop) : Prop :=
  ∀ c value d, piece c value d → c < d ∧ Within c d

variable {c d e : Cursor} {n : Nat}

/-- What is placed goes forward within its statement. -/
theorem Placed.forward {span : Span} (h : Placed c span d) : c < d ∧ Within c d :=
  ⟨h.lt, h.within⟩

/-- The line does not end where some other character comes next. -/
theorem Cursor.atLineEnd_of_peek {x : Char} (h : c.peek = some x) (hx : x ≠ '\n') :
    Scan.atLineEnd c.rest = false := by
  obtain ⟨rest, hrest⟩ := List.head?_eq_some_iff.mp h
  simpa [hrest, Scan.atLineEnd] using hx

/-- A character other than a line feed is passed within its statement. -/
theorem Within.peek {x : Char} (h : c.peek = some x) (hx : x ≠ '\n') :
    c < c.advance 1 ∧ Within c (c.advance 1) := by
  obtain ⟨rest, hrest⟩ := List.head?_eq_some_iff.mp h
  have hlt : c < c.advance 1 := Cursor.lt_advance Nat.one_pos (by simp [hrest])
  exact ⟨hlt, .next (Cursor.atLineEnd_of_peek h hx)⟩

/-- Fragments stay within their statement. -/
theorem FragmentsAt.within {inKey : Bool} {fragments : List Fragment}
    (h : FragmentsAt inKey c fragments d) : Within c d := by
  induction h with
  | nil => exact .refl _
  | interpolation hstart hok _ ih =>
      exact (Within.inline (Scan.inline_interpolation hstart hok).2).trans ih
  | literal _ hfragment _ ih => exact (Within.inline (Scan.inline_fragment hfragment)).trans ih

/-- The span of a macro argument is where it has been read. -/
theorem InterpolatedAt.placed {inKey : Bool} {argument : Interpolated}
    (h : InterpolatedAt inKey c argument d) : Placed c argument.span d := by
  cases h with
  | quoted hstart hok => exact .inline (Nat.succ_pos _) (Scan.inline_quoted hstart hok)
  | bare _ hlt h => exact ⟨hlt, h.within, rfl⟩

/-- The span of a key is where it has been read. -/
theorem KeyAt.placed {key : NbtKey} (h : KeyAt c key d) : Placed c key.span d := by
  cases h with
  | interpolated _ h => exact h.placed
  | quoted _ hstart hok => exact .inline (Nat.succ_pos _) (Scan.inline_quoted hstart hok)
  | bare _ _ hword => exact .inline (Scan.word_pos hword) (Scan.inline_word hword)

/-- The elements of a container go forward if each does, as long as no line feed closes it. -/
theorem ElementsAt.forward {α : Type} {element : Cursor → α → Cursor → Prop} {closer : Char}
    (hcloser : closer ≠ '\n') (helement : Forward element) :
    Forward (ElementsAt element closer) := by
  intro c values d h
  induction h with
  | @last c d _ hvalue hpeek =>
      obtain ⟨hlt, hwithin⟩ := helement _ _ _ hvalue
      have hnext := Within.peek hpeek hcloser
      exact ⟨hlt.trans_le (d.le_skipTrivia.trans hnext.1.le),
        (hwithin.trans (.skipTrivia d)).trans hnext.2⟩
  | @next c d _ _ _ hvalue hpeek _ ih =>
      obtain ⟨hlt, hwithin⟩ := helement _ _ _ hvalue
      have hnext := Within.peek hpeek (by decide)
      exact ⟨hlt.trans_le (d.le_skipTrivia.trans (hnext.1.le.trans
          ((Cursor.le_skipTrivia _).trans ih.1.le))),
        (((hwithin.trans (.skipTrivia d)).trans hnext.2).trans (.skipTrivia _)).trans ih.2⟩

/-- The span of a pair is where it has been read. -/
theorem PairAt.placed {value : Cursor → NbtValue → Cursor → Prop} {pair : NbtPair}
    (hvalue : Forward value) (h : PairAt value c pair d) : Placed c pair.span d := by
  cases h with
  | mk hkey hoperator hinner =>
      obtain ⟨x, hpeek, hx⟩ := Option.bind_eq_some_iff.mp hoperator
      have hnext := Within.peek hpeek (by rintro rfl; cases hx)
      obtain ⟨hlt, hwithin⟩ := hvalue _ _ _ hinner
      refine ⟨?_, ?_, rfl⟩
      · exact hkey.placed.lt.trans_le ((Cursor.le_skipTrivia _).trans (hnext.1.le.trans
          ((Cursor.le_skipTrivia _).trans hlt.le)))
      · exact (((hkey.placed.within.trans (.skipTrivia _)).trans hnext.2).trans
          (.skipTrivia _)).trans hwithin

/-- What follows an opening bracket and trivia stands in the same piece as the bracket. -/
theorem Placed.opened {x : Char} (hpeek : c.peek = some x) (hx : x ≠ '\n')
    (h : (c.advance 1).skipTrivia < d ∧ Within (c.advance 1).skipTrivia d) :
    Placed c (c.spanTo d) d := by
  have hopen := Within.peek hpeek hx
  exact ⟨hopen.1.trans_le ((Cursor.le_skipTrivia _).trans h.1.le),
    (hopen.2.trans (.skipTrivia _)).trans h.2, rfl⟩

/-- The span of a list is where it has been read. -/
theorem ListOfAt.placed {value : Cursor → NbtValue → Cursor → Prop} {list : NbtList}
    (hvalue : Forward value) (h : ListOfAt value c list d) : Placed c list.span d := by
  cases h with
  | empty hopen hclose => exact .opened hopen (by decide) (Within.peek hclose (by decide))
  | pairs hopen _ h =>
      have hpair : Forward (PairAt value) := fun _ _ _ h => (h.placed hvalue).forward
      exact .opened hopen (by decide) (ElementsAt.forward (by decide) hpair _ _ _ h)
  | values hopen _ h =>
      exact .opened hopen (by decide) (ElementsAt.forward (by decide) hvalue _ _ _ h)

/-- The span of a compound is where it has been read. -/
theorem CompoundOfAt.placed {value : Cursor → NbtValue → Cursor → Prop} {compound : NbtCompound}
    (hvalue : Forward value) (h : CompoundOfAt value c compound d) :
    Placed c compound.span d := by
  cases h with
  | mk hopen h =>
      have hpair : Forward (PairAt value) := fun _ _ _ h => (h.placed hvalue).forward
      exact .opened hopen (by decide) (ElementsAt.forward (by decide) hpair _ _ _ h)

/-- The span of a value is where it has been read, if those of lists and compounds are. -/
theorem ValueOfAt.placed {list : Cursor → NbtList → Cursor → Prop}
    {compound : Cursor → NbtCompound → Cursor → Prop} {value : NbtValue}
    (hlist : ∀ c inner d, list c inner d → Placed c inner.span d)
    (hcompound : ∀ c inner d, compound c inner d → Placed c inner.span d)
    (h : ValueOfAt list compound c value d) : Placed c value.span d := by
  cases h with
  | interpolated _ h => exact h.placed
  | quoted _ hstart hok => exact .inline (Nat.succ_pos _) (Scan.inline_quoted hstart hok)
  | list h => exact hlist _ _ _ h
  | compound h => exact hcompound _ _ _ h
  | error _ h => exact h.placed
  | resource hspace hpath => exact .inline (by omega) (Scan.inline_location hspace hpath)
  | number hnumber =>
      have hnumber := Scan.wholeNumber_eq_some hnumber
      exact .inline (Scan.suffixedNumber_pos hnumber) (Scan.inline_suffixedNumber hnumber)
  | boolean hword => exact .inline (Scan.word_pos hword) (Scan.inline_word hword)
  | word hword => exact .inline (Scan.word_pos hword) (Scan.inline_word hword)

/-- The span of a value is where it has been read, whatever room for nesting was left. -/
theorem ValueAt.placed {room : Nat} {value : NbtValue} (h : ValueAt room c value d) :
    Placed c value.span d := by
  induction room generalizing c value d with
  | zero => exact h.placed (fun _ _ _ h => h.elim) (fun _ _ _ h => h.elim)
  | succ room ih =>
      have hvalue : Forward (ValueAt room) := fun _ _ _ h => (ih h).forward
      exact h.placed (fun _ _ _ h => h.placed hvalue) (fun _ _ _ h => h.placed hvalue)

/-- Values go forward within their statement. -/
theorem ValueAt.forward (room : Nat) : Forward (ValueAt room) :=
  fun _ _ _ h => h.placed.forward

/-- The span of such a list is where it has been read. -/
theorem ListAt.placed {room : Nat} {list : NbtList} (h : ListAt room c list d) :
    Placed c list.span d := by
  cases room with
  | zero => exact h.elim
  | succ room => exact ListOfAt.placed (ValueAt.forward room) h

/-- The span of such a compound is where it has been read. -/
theorem CompoundAt.placed {room : Nat} {compound : NbtCompound}
    (h : CompoundAt room c compound d) : Placed c compound.span d := by
  cases room with
  | zero => exact h.elim
  | succ room => exact CompoundOfAt.placed (ValueAt.forward room) h

/-- Suffixes stay within their statement. -/
theorem SuffixesAt.within {room : Nat} {suffixes : List PathSuffix}
    (h : SuffixesAt room c suffixes d) : Within c d := by
  induction h with
  | nil => exact .refl _
  | index h _ ih => exact h.placed.within.trans ih
  | filter h _ ih => exact h.placed.within.trans ih

/-- Segments stay within their statement. -/
theorem SegmentsAt.within {room : Nat} {start : Cursor} {name : NbtKey}
    {segments : List PathSegment} (h : SegmentsAt room start name c segments d) :
    Within c d := by
  induction h with
  | last h _ => exact h.within
  | next h hpoint hkey _ ih =>
      exact ((h.within.trans (Within.peek hpoint (by decide)).2).trans hkey.placed.within).trans ih

/-- The span of a path is where it has been read. -/
theorem PathAt.placed {room : Nat} {path : NbtPath} (h : PathAt room c path d) :
    Placed c path.span d := by
  cases h with
  | mk hkey _ h =>
      exact ⟨hkey.placed.lt.trans_le h.within.le, hkey.placed.within.trans h.within, rfl⟩

/-- The two characters of a selector's target. -/
theorem inline_target {target : SelectorTarget} (hat : c.peek = some '@')
    (htarget : (c.advance 1).peek.bind SelectorTarget.ofChar? = some target) :
    Scan.Inline c.rest 2 := by
  obtain ⟨rest, hrest⟩ := List.head?_eq_some_iff.mp hat
  obtain ⟨x, hpeek, hx⟩ := Option.bind_eq_some_iff.mp htarget
  rw [Cursor.peek, Cursor.advance_one_of_cons hrest] at hpeek
  obtain ⟨rest, rfl⟩ := List.head?_eq_some_iff.mp hpeek
  rw [hrest]
  exact .cons (by decide) (.one (by rintro rfl; cases hx))

/-- The span of a selector is where it has been read. -/
theorem SelectorAt.placed {room : Nat} {selector : Selector} (h : SelectorAt room c selector d) :
    Placed c selector.span d := by
  cases h with
  | target hat htarget _ => exact .inline (by decide) (inline_target hat htarget)
  | filtered hat htarget h =>
      have hline := inline_target hat htarget
      exact ⟨(Cursor.le_advance hline.le_length).trans_lt h.placed.lt,
        (Within.inline hline).trans h.placed.within, rfl⟩

/-- The span of an argument is where it has been read, if those of run clauses are. -/
theorem ArgumentAt.placed {room : Nat} {run : Cursor → Cursor → RunClause → Cursor → Prop}
    {inMacro : Bool} {argument : Argument}
    (hrun : ∀ c d clause e, run c d clause e → Within d e ∧ clause.span = c.spanTo e)
    (h : ArgumentAt room run inMacro c argument d) : Placed c argument.span d := by
  cases h with
  | interpolated _ _ h => exact h.placed
  | coordinates h =>
      obtain ⟨-, -, -, -, hpos, hline⟩ := Scan.coordinates_eq_some h
      exact .inline (by omega) hline
  | quoted _ hstart hok => exact .inline (Nat.succ_pos _) (Scan.inline_quoted hstart hok)
  | path h => exact h.placed
  | selector h => exact h.placed
  | list h => exact h.placed
  | compound h => exact h.placed
  | fakePlayer h =>
      obtain ⟨name, k, hrest, rfl, hline⟩ := Scan.fakePlayer_eq_some h
      exact .inline (Nat.succ_pos k) (hrest ▸ .cons (by decide) hline)
  | resource hspace hpath => exact .inline (by omega) (Scan.inline_location hspace hpath)
  | number hnumber =>
      have hnumber := Scan.wholeNumber_eq_some hnumber
      exact .inline (Scan.suffixedNumber_pos hnumber) (Scan.inline_suffixedNumber hnumber)
  | boolean hword => exact .inline (Scan.word_pos hword) (Scan.inline_word hword)
  | run hword _ _ h =>
      obtain ⟨hwithin, hspan⟩ := hrun _ _ _ _ h
      have hline := Scan.inline_word hword
      exact ⟨(Cursor.lt_advance (Scan.word_pos hword) hline.le_length).trans_le hwithin.le,
        (Within.inline hline).trans hwithin, hspan⟩
  | keyword hword => exact .inline (Scan.word_pos hword) (Scan.inline_word hword)

/-- Arguments stay within their statement. -/
theorem ArgumentListAt.within {argument : Cursor → Argument → Cursor → Prop} {afterError : Bool}
    {arguments : List Argument} (hargument : Forward argument)
    (h : ArgumentListAt argument afterError c arguments d) : Within c d := by
  induction h with
  | nil => exact .refl _
  | cons _ _ h _ ih =>
      exact ((Within.skipTrivia _).trans (hargument _ _ _ h).2).trans ih
  | error _ h _ ih => exact ((Within.skipTrivia _).trans h.placed.within).trans ih

/-- The last argument ends where the arguments end. -/
theorem ArgumentListAt.getLast_span {argument : Cursor → Argument → Cursor → Prop}
    {afterError : Bool} {arguments : List Argument} {last : Argument}
    (hargument : ∀ c value d, argument c value d → Placed c value.span d)
    (h : ArgumentListAt argument afterError c arguments d)
    (hlast : arguments.getLast? = some last) : last.span.stop = d.offset := by
  induction h with
  | nil => cases hlast
  | @cons _ _ _ _ first arguments _ _ h htail ih =>
      rcases arguments with _ | ⟨second, arguments⟩
      · cases htail
        obtain rfl : first = last := by simpa using hlast
        rw [(hargument _ _ _ h).span_eq]
        rfl
      · exact ih (by simpa using hlast)
  | @error _ _ _ _ node arguments _ h htail ih =>
      rcases arguments with _ | ⟨second, arguments⟩
      · cases htail
        obtain rfl : Argument.error node = last := by simpa using hlast
        rw [Argument.span, h.placed.span_eq]
        rfl
      · exact ih (by simpa using hlast)

/-- What the arguments of a command promise about where they stand. -/
structure ArgumentsPlaced (arguments : Cursor → List Argument → Cursor → Prop) : Prop where
  /-- They stay in the statement. -/
  within : ∀ {c args d}, arguments c args d → Within c d
  /-- Where they end, only trivia are left of the statement. -/
  atLineEnd : ∀ {c args d}, arguments c args d → Scan.atLineEnd d.skipTrivia.rest
  /-- There are none, or the last ends where they end. -/
  last : ∀ {c args d last}, arguments c args d → args.getLast? = some last →
    last.span.stop = d.offset

/-- The span of a command is where it has been read. -/
theorem CommandAt.placed {arguments : Cursor → List Argument → Cursor → Prop}
    {command : Command} (harguments : ArgumentsPlaced arguments)
    (h : CommandAt arguments c command d) : Placed c command.span d := by
  cases h with
  | mk hname h =>
      have hline := Scan.inline_commandName hname
      have hwithin := harguments.within h
      exact ⟨(Cursor.lt_advance (Scan.commandName_pos hname) hline.le_length).trans_le hwithin.le,
        (Within.inline hline).trans hwithin, rfl⟩

/-- The span of a macro name is where it has been read. -/
theorem MacroNameAt.placed {name : MacroName} (h : MacroNameAt c name d) :
    Placed c name.span d := by
  cases h with
  | literal h => exact .inline (Scan.commandName_pos h) (Scan.inline_commandName h)
  | interpolation hstart hok =>
      obtain ⟨hpos, hline⟩ := Scan.inline_interpolation hstart hok
      exact .inline hpos hline

/-- The span of a macro command is where it has been read. -/
theorem MacroCommandAt.placed {arguments : Cursor → List Argument → Cursor → Prop}
    {command : MacroCommand} (harguments : ArgumentsPlaced arguments)
    (h : MacroCommandAt arguments c command d) : Placed c command.span d := by
  cases h with
  | mk hdollar hname h =>
      have hwithin := harguments.within h
      exact .opened hdollar (by decide)
        ⟨hname.placed.lt.trans_le hwithin.le, hname.placed.within.trans hwithin⟩

/-- A run clause stays within its statement, and its span starts with its word. -/
theorem RunClauseAt.within {arguments : Bool → Cursor → List Argument → Cursor → Prop}
    {inMacro : Bool} {start : Cursor} {clause : RunClause}
    (harguments : ∀ inMacro, ArgumentsPlaced (arguments inMacro))
    (h : RunClauseAt arguments inMacro start c clause d) :
    Within c d ∧ clause.span = start.spanTo d := by
  cases h with
  | command h => exact ⟨(Within.skipTrivia _).trans (h.placed (harguments _)).within, rfl⟩
  | macroCommand h => exact ⟨(Within.skipTrivia _).trans (h.placed (harguments _)).within, rfl⟩

/-- A list of arguments is placed if each argument is. -/
theorem ArgumentListAt.argumentsPlaced {argument : Cursor → Argument → Cursor → Prop}
    {afterError : Bool} (hargument : ∀ c value d, argument c value d → Placed c value.span d) :
    ArgumentsPlaced (ArgumentListAt argument afterError) where
  within h := h.within fun _ _ _ h => (hargument _ _ _ h).forward
  atLineEnd h := by
    induction h with
    | nil h => exact h
    | cons _ _ _ _ ih => exact ih
    | error _ _ _ ih => exact ih
  last h hlast := h.getLast_span hargument hlast

/-- Arguments stay in their statement and end with the last of them. -/
theorem ArgumentsAt.argumentsPlaced (room : Nat) (inMacro : Bool) :
    ArgumentsPlaced (ArgumentsAt room inMacro) := by
  induction room generalizing inMacro with
  | zero => exact ArgumentListAt.argumentsPlaced fun _ _ _ h => h.placed fun _ _ _ _ h => h.elim
  | succ room ih =>
      exact ArgumentListAt.argumentsPlaced fun _ _ _ h =>
        h.placed fun _ _ _ _ h => h.within ih

end Mcfunction
