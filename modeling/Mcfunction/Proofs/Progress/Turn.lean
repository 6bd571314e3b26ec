import Mcfunction.Proofs.Gaps.Command
import Mcfunction.Proofs.Progress.Loop

/-!
# The Turns of the Parser's Loops

One turn of each loop that moves the cursor: over statements, arguments, elements of containers,
suffixes and segments of paths, and the pieces of interpolated text. Each loop repeats its turn,
and each turn makes progress.

A turn over statements or arguments skips trivia before it looks at what stands there. It is the
place behind the trivia that such a turn leaves behind, in both modes: a placeholder is not empty.

## Main results

* `statements_loop`, `argumentList_loop`, `elements_loop`: the loops that recover, or that hold
  what recovers.
* `suffixes_loop`, `segments_loop`: paths.
* `bareFragments_loop`, `quotedFragments_loop`: interpolated text.
-/

namespace Mcfunction.Parser

variable {α : Type} {limit : Nat} {mode : Mode} {c : Cursor}

/-- A loop in a text that may be entered anywhere. -/
def Anywhere {State : Type} (_ : State) (_ : Cursor) : Prop :=
  True

/-! ### Statements -/

/-- One turn of the loop over statements: a line break or a statement. -/
def statementTurn (arguments : Bool → Parser (List Argument)) (_ : Unit) :
    Parser (Turn Unit Statement) := do
  skipTrivia
  match (← here).peek with
  | none => return .stop []
  | some '\n' =>
    take 1
    return .next [] ()
  | some _ =>
    let first ← anyStatement arguments
    return .next [first] ()

/-- The statements of a document are parsed turn by turn. -/
theorem statements_repeats (arguments : Bool → Parser (List Argument)) (fuel : Nat) :
    statements arguments fuel = repeating (statementTurn arguments) fuel () := by
  induction fuel with
  | zero => rfl
  | succ fuel ih =>
      rw [statements, repeating, statementTurn]
      simp only [LawfulMonad.bind_assoc]
      refine bind_congr fun _ => ?_
      refine bind_congr fun start => ?_
      generalize start.peek = next
      split <;> simp [*]

/-- Each turn gets on by a statement or a line feed, or it is the last. -/
theorem statementTurn_reads {arguments : Bool → Parser (List Argument)}
    {argumentsAt : Bool → Cursor → List Argument → Cursor → Prop}
    (hplaced : ∀ inMacro, ArgumentsPlaced (argumentsAt inMacro))
    (harguments : ∀ inMacro c, Reads limit c c (arguments inMacro) (argumentsAt inMacro c))
    (c : Cursor) :
    Reads limit c c (statementTurn arguments ()) (Turn.Ends Anywhere c.skipTrivia (c ≤ ·)) := by
  have hstart := c.le_skipTrivia
  rw [statementTurn, reads_skipTrivia_bind, reads_here_bind]
  split
  · exact .pure hstart
  · rename_i hpeek
    have hlen : 1 ≤ c.skipTrivia.rest.length := Cursor.length_pos_of_peek hpeek
    rw [reads_take_bind hlen]
    exact .pure ⟨Cursor.lt_advance Nat.one_pos hlen, trivial⟩
  · rename_i x hne hpeek
    have hline : Scan.atLineEnd c.skipTrivia.rest = false :=
      Cursor.atLineEnd_of_peek hpeek (by simpa using hne)
    refine ((anyStatement_reads hplaced harguments _).weaken hstart).bind fun first d hfirst => ?_
    exact .pure ⟨(hfirst.forward hplaced hline).1, trivial⟩

/-- The loop over the statements of a text. -/
theorem statements_loop (limit : Nat) (mode : Mode) :
    Loop ⟨limit, mode⟩ Anywhere Cursor.skipTrivia (· ≤ ·) (statementTurn (arguments limit))
      (fun fuel _ => statements (arguments limit) fuel) :=
  .of_advances Cursor.le_skipTrivia (fun _ _ h => h)
    (fun _ c _ => (statementTurn_reads (ArgumentsAt.argumentsPlaced limit)
      (arguments_reads limit) c).keeps mode)
    (fun fuel _ => statements_repeats _ fuel)

/-! ### Arguments -/

/-- One turn of the loop over arguments: an argument or its placeholder. The state is whether the
argument before it is a placeholder. -/
def argumentTurn (argument : Parser Argument) (afterError : Bool) :
    Parser (Turn Bool Argument) := do
  let gap ← here
  skipTrivia
  let start ← here
  if Scan.atLineEnd start.rest then
    moveTo gap
    return .stop []
  else
    let glued := start.offset == gap.offset && !afterError &&
      start.peek != some '[' && start.peek != some '{'
    let first ← orPlaceholder (if glued then missingSeparator else argument) .error
    return .next [first] (isPlaceholder first)

/-- A list of arguments is parsed turn by turn. -/
theorem argumentList_repeats (argument : Parser Argument) (fuel : Nat) (afterError : Bool) :
    argumentList argument afterError fuel = repeating (argumentTurn argument) fuel afterError := by
  induction fuel generalizing afterError with
  | zero => rfl
  | succ fuel ih =>
      rw [argumentList, repeating, argumentTurn]
      simp only [LawfulMonad.bind_assoc]
      refine bind_congr fun gap => ?_
      refine bind_congr fun _ => ?_
      refine bind_congr fun start => ?_
      split <;> simp [ih]

/-- Each turn gets on by an argument, or it is the last. -/
theorem argumentTurn_reads {argument : Parser Argument}
    {argumentAt : Cursor → Argument → Cursor → Prop}
    (hplaced : ∀ c value d, argumentAt c value d → Placed c value.span d)
    (hargument : ∀ c, Reads limit c c argument (argumentAt c)) (afterError : Bool) (c : Cursor) :
    Reads limit c c (argumentTurn argument afterError)
      (Turn.Ends Anywhere c.skipTrivia (c ≤ ·)) := by
  rw [argumentTurn, reads_here_bind, reads_skipTrivia_bind, reads_here_bind]
  by_cases hline : Scan.atLineEnd c.skipTrivia.rest
  · rw [if_pos hline, reads_moveTo_bind]
    exact .pure (le_refl c)
  · rw [if_neg hline]
    rw [Bool.not_eq_true] at hline
    dsimp only
    refine ((argumentOrPlaceholder_reads _ hline (hargument _)).weaken c.le_skipTrivia).bind ?_
    rintro first d (⟨-, h⟩ | ⟨node, rfl, h⟩)
    · exact .pure ⟨(hplaced _ _ _ h).lt, trivial⟩
    · exact .pure ⟨h.placed.lt, trivial⟩

/-- The loop over the arguments of a command with any number of levels left. -/
theorem argumentList_loop (limit : Nat) (mode : Mode) (room : Nat) (inMacro : Bool) :
    Loop ⟨limit, mode⟩ Anywhere Cursor.skipTrivia (· ≤ ·)
      (argumentTurn (argumentWithin room inMacro))
      (fun fuel afterError => argumentList (argumentWithin room inMacro) afterError fuel) :=
  .of_advances Cursor.le_skipTrivia (fun _ _ h => h)
    (fun afterError c _ => (argumentTurn_reads (fun _ _ _ h => h.placed)
      (argumentWithin_reads room inMacro) afterError c).keeps mode)
    (fun fuel afterError => argumentList_repeats _ fuel afterError)

/-! ### Elements of a container -/

/-- One turn of the loop over elements: an element and what separates it from the next one. -/
def elementTurn (element : Parser α) (bracket : Bracket) (opener : Cursor) (_ : Unit) :
    Parser (Turn Unit α) := do
  let first ← element
  let closed ← separator bracket opener
  if closed then return .stop [first] else return .next [first] ()

/-- The elements of a container are parsed turn by turn. -/
theorem elements_repeats (element : Parser α) (bracket : Bracket) (opener : Cursor) (fuel : Nat) :
    elements element bracket opener fuel =
      repeating (elementTurn element bracket opener) fuel () := by
  induction fuel with
  | zero => rfl
  | succ fuel ih =>
      rw [elements, repeating, elementTurn]
      simp only [LawfulMonad.bind_assoc]
      refine bind_congr fun first => ?_
      refine bind_congr fun closed => ?_
      split <;> simp [ih]

/-- Each turn gets on by an element, or it is the last. -/
theorem elementTurn_reads {element : Parser α} {piece : Cursor → α → Cursor → Prop}
    {bracket : Bracket} {opener : Cursor} (hpiece : Forward piece)
    (helement : ∀ c, Reads limit c c element (piece c)) (hopen : StartsWithByte opener)
    (hwithin : Within opener c) :
    Reads limit opener c (elementTurn element bracket opener ())
      (Turn.Ends (fun _ => Within opener) c (c < ·)) := by
  rw [elementTurn]
  refine ((helement c).weaken hwithin.le).bind fun first d hfirst => ?_
  obtain ⟨hlt, hd⟩ := hpiece _ _ _ hfirst
  refine (separator_steady (.refl opener) hopen (hwithin.trans hd)).reads.bind
    fun closed e hsep => ?_
  have he := hsep.within bracket.closer_ne_newline
  cases closed with
  | true => exact .pure (hlt.trans_le he.le)
  | false => exact .pure ⟨hlt.trans_le he.le, (hwithin.trans hd).trans he⟩

/-- The loop over the elements of a container that opens at a bracket. -/
theorem elements_loop {element : Parser α} {piece : Cursor → α → Cursor → Prop}
    (hpiece : Forward piece) (helement : ∀ c, Reads limit c c element (piece c)) (mode : Mode)
    (bracket : Bracket) {opener : Cursor} (hopen : StartsWithByte opener) :
    Loop ⟨limit, mode⟩ (fun _ => Within opener) id (· < ·) (elementTurn element bracket opener)
      (fun fuel _ => elements element bracket opener fuel) :=
  .of_advances (fun _ => le_rfl) (fun _ _ h => h.le)
    (fun _ _ hready => (elementTurn_reads hpiece helement hopen hready).keeps mode)
    (fun fuel _ => elements_repeats element bracket opener fuel)

/-! ### Paths -/

/-- One turn of the loop over the suffixes of a segment: a list or a compound. -/
def suffixTurn (inside : Containers) (_ : Unit) : Parser (Turn Unit PathSuffix) := do
  match (← here).peek with
  | some '[' =>
    let index ← inside.list
    return .next [.index index] ()
  | some '{' =>
    let filter ← inside.compound
    return .next [.filter filter] ()
  | _ => return .stop []

/-- The suffixes of a key are parsed turn by turn. -/
theorem suffixes_repeats (inside : Containers) (fuel : Nat) :
    suffixes inside fuel = repeating (suffixTurn inside) fuel () := by
  induction fuel with
  | zero => rfl
  | succ fuel ih =>
      rw [suffixes, repeating, suffixTurn]
      simp only [LawfulMonad.bind_assoc]
      refine bind_congr fun start => ?_
      generalize start.peek = next
      split <;> simp [*]

/-- Each turn gets on by a suffix, or it is the last. -/
theorem suffixTurn_reads (room : Nat) (c : Cursor) :
    Reads limit c c (suffixTurn (containers room) ()) (Turn.Ends Anywhere c (c ≤ ·)) := by
  rw [suffixTurn, reads_here_bind]
  split
  · rename_i hpeek
    exact (list_reads room hpeek).bind fun _ _ h => .pure ⟨h.placed.lt, trivial⟩
  · rename_i hpeek
    exact (compound_reads room hpeek).bind fun _ _ h => .pure ⟨h.placed.lt, trivial⟩
  · exact .pure (le_refl c)

/-- The loop over the suffixes of a segment. -/
theorem suffixes_loop (limit : Nat) (mode : Mode) (room : Nat) :
    Loop ⟨limit, mode⟩ Anywhere id (· ≤ ·) (suffixTurn (containers room))
      (fun fuel _ => suffixes (containers room) fuel) :=
  .of_advances (fun _ => le_rfl) (fun _ _ h => h)
    (fun _ c _ => (suffixTurn_reads room c).keeps mode) (fun fuel _ => suffixes_repeats _ fuel)

/-- One turn of the loop over the segments of a path. The state is the name of the segment, which
has been read. -/
def segmentTurn (inside : Containers) (name : NbtKey) : Parser (Turn NbtKey PathSegment) := do
  let start ← here
  let suffixes ← suffixes inside (start.rest.length + 1)
  let segment : PathSegment := ⟨name, suffixes, ← spanFrom name.span.start⟩
  if (← here).peek == some '.' then
    take 1
    let next ← segmentName
    return .next [segment] next
  else return .stop [segment]

/-- The segments of a path are parsed turn by turn. -/
theorem segments_repeats (inside : Containers) (fuel : Nat) (name : NbtKey) :
    segments inside fuel name = repeating (segmentTurn inside) fuel name := by
  induction fuel generalizing name with
  | zero => rfl
  | succ fuel ih =>
      rw [segments, repeating, segmentTurn]
      simp only [LawfulMonad.bind_assoc]
      refine bind_congr fun start => ?_
      refine bind_congr fun suffixes => ?_
      refine bind_congr fun span => ?_
      refine bind_congr fun next => ?_
      split <;> simp [ih]

/-- The name starts at a place before the cursor. -/
def NamedBefore (name : NbtKey) (c : Cursor) : Prop :=
  ∃ start, start < c ∧ name.span.start = start.offset

/-- Each turn gets on by a name, or it is the last. -/
theorem segmentTurn_reads {room : Nat} {name : NbtKey} (hname : NamedBefore name c) :
    Reads limit c c (segmentTurn (containers room) name) (Turn.Ends NamedBefore c (c ≤ ·)) := by
  obtain ⟨start, hlt, hstart⟩ := hname
  rw [segmentTurn, reads_here_bind]
  refine (suffixes_reads le_rfl (Nat.lt_succ_self _)).bind fun suffixes d hsuffixes => ?_
  have hd := hsuffixes.within.le
  rw [hstart, reads_spanFrom_bind (hlt.le.trans hd), reads_here_bind]
  by_cases hpoint : d.peek = some '.'
  · have hnext := (Within.peek hpoint (by decide)).1
    rw [if_pos (by simpa using hpoint), reads_take_bind (Cursor.length_pos_of_peek hpoint)]
    refine ((segmentName_steady _).reads.weaken (hd.trans hnext.le)).bind fun next e hkey => ?_
    have he := hkey.placed
    refine .pure ⟨(hd.trans_lt hnext).trans he.lt, d.advance 1, he.lt, ?_⟩
    rw [he.span_eq]
    rfl
  · rw [if_neg (by simpa using hpoint)]
    exact .pure hd

/-- The loop over the segments of a path. -/
theorem segments_loop (limit : Nat) (mode : Mode) (room : Nat) :
    Loop ⟨limit, mode⟩ NamedBefore id (· ≤ ·) (segmentTurn (containers room))
      (fun fuel name => segments (containers room) fuel name) :=
  .of_advances (fun _ => le_rfl) (fun _ _ h => h)
    (fun _ _ hready => (segmentTurn_reads hready).keeps mode)
    (fun fuel name => segments_repeats _ fuel name)

/-! ### Interpolated text -/

/-- One turn of the loop over the pieces of an argument outside quotes. -/
def bareFragmentTurn (inKey : Bool) (_ : Unit) : Parser (Turn Unit Fragment) := do
  let cursor ← here
  if Scan.startsInterpolation cursor.rest then
    let piece ← interpolation
    return .next [.interpolation piece] ()
  else
    match Scan.fragment inKey cursor.rest with
    | none => return .stop []
    | some count =>
      let run ← textRun count
      return .next [.literal run] ()

/-- The fragments of a bare macro argument are parsed turn by turn. -/
theorem bareFragments_repeats (inKey : Bool) (fuel : Nat) :
    bareFragments inKey fuel = repeating (bareFragmentTurn inKey) fuel () := by
  induction fuel with
  | zero => rfl
  | succ fuel ih =>
      rw [bareFragments, repeating, bareFragmentTurn]
      simp only [LawfulMonad.bind_assoc]
      refine bind_congr fun cursor => ?_
      split
      · simp [ih]
      · rcases Scan.fragment inKey cursor.rest with _ | count <;> simp [ih]

/-- Each turn gets on by a fragment, or it is the last. -/
theorem bareFragmentTurn_steady (inKey : Bool) (c : Cursor) :
    Steady c c (bareFragmentTurn inKey ()) (Turn.Ends Anywhere c (c ≤ ·)) := by
  rw [bareFragmentTurn, steady_bind_iff fun _ => here_run]
  by_cases hstart : Scan.startsInterpolation c.rest
  · rw [if_pos hstart]
    refine (interpolation_steady (.refl c) hstart).bind ?_
    rintro _ _ ⟨n, hn, -, rfl⟩
    obtain ⟨hpos, hline⟩ := Scan.inline_interpolation hstart hn
    exact .pure ⟨Cursor.lt_advance hpos hline.le_length, trivial⟩
  · rw [if_neg hstart]
    rcases hn : Scan.fragment inKey c.rest with _ | n
    · exact .pure (le_refl c)
    · have hlen := (Scan.inline_fragment hn).le_length
      refine (steady_bind_iff fun _ => textRun_run hlen).mpr ?_
      exact .pure ⟨Cursor.lt_advance (Scan.fragment_pos hn) hlen, trivial⟩

/-- The loop over the pieces of an argument outside quotes. -/
theorem bareFragments_loop (limit : Nat) (mode : Mode) (inKey : Bool) :
    Loop ⟨limit, mode⟩ Anywhere id (· ≤ ·) (bareFragmentTurn inKey)
      (fun fuel _ => bareFragments inKey fuel) :=
  .of_advances (fun _ => le_rfl) (fun _ _ h => h)
    (fun _ c _ => (bareFragmentTurn_steady inKey c).reads.keeps mode)
    (fun fuel _ => bareFragments_repeats inKey fuel)

/-- One turn of the loop over the pieces of a quoted argument. The state is how many characters
are left before the closing quote. -/
def quotedFragmentTurn (left : Nat) : Parser (Turn Nat Fragment) := do
  if left = 0 then return .stop []
  else
    let cursor ← here
    match Scan.repeated quotedTextStep 0 (cursor.rest.take left) with
    | 0 =>
      let piece ← interpolation
      let count := cursor.rest.length - (← here).rest.length
      return .next [.interpolation piece] (left - count)
    | count + 1 =>
      let run ← textRun (count + 1)
      return .next [.quoted run] (left - (count + 1))

/-- The fragments within quotes are parsed turn by turn. -/
theorem quotedFragments_repeats (fuel left : Nat) :
    quotedFragments fuel left = repeating quotedFragmentTurn fuel left := by
  induction fuel generalizing left with
  | zero => rfl
  | succ fuel ih =>
      rw [quotedFragments, repeating, quotedFragmentTurn]
      split
      · rfl
      · simp only [LawfulMonad.bind_assoc]
        refine bind_congr fun cursor => ?_
        rcases Scan.repeated quotedTextStep 0 (cursor.rest.take left) with _ | count <;> simp [ih]

/-- So many characters are left of a string that closes on its line. -/
def BeforeQuote (left : Nat) (c : Cursor) : Prop :=
  ∃ closes, Scan.InQuotes closes c.rest left

/-- Each turn gets on by a fragment, or it is the last. -/
theorem quotedFragmentTurn_steady {left : Nat} (hquotes : BeforeQuote left c) :
    Steady c c (quotedFragmentTurn left) (Turn.Ends BeforeQuote c (c ≤ ·)) := by
  obtain ⟨closes, hquotes⟩ := hquotes
  have hlen := hquotes.inline.le_length
  rw [quotedFragmentTurn]
  by_cases hleft : left = 0
  · rw [if_pos hleft]
    exact .pure (le_refl c)
  · rw [if_neg hleft, steady_bind_iff fun _ => here_run]
    have hnext : ∀ {n}, 0 < n → n ≤ left → Scan.InQuotes closes (c.rest.drop n) (left - n) →
        c < c.advance n ∧ BeforeQuote (left - n) (c.advance n) := by
      intro n hpos hle hin
      refine ⟨Cursor.lt_advance hpos (by omega), closes, ?_⟩
      rwa [Cursor.advance_rest]
    obtain ⟨hle, hin, hstart⟩ := hquotes.text rfl
    generalize Scan.repeated quotedTextStep 0 (c.rest.take left) = n at hle hin hstart ⊢
    rcases n with _ | n
    · have hstart := hstart (by omega)
      obtain ⟨n, hok, hle, hin⟩ := hquotes.interpolation hstart
      obtain ⟨hpos, hline⟩ := Scan.inline_interpolation hstart hok
      refine (steady_bind_iff fun _ => interpolation_run hstart hok).mpr ?_
      rw [steady_bind_iff fun _ => here_run]
      have hcount : c.rest.length - (c.advance n).rest.length = n := by
        rw [Cursor.advance_rest, List.length_drop]
        omega
      rw [hcount]
      exact .pure (hnext hpos hle hin)
    · refine (steady_bind_iff fun _ => textRun_run (by omega)).mpr ?_
      exact .pure (hnext (Nat.succ_pos n) hle hin)

/-- The loop over the pieces of a quoted argument. -/
theorem quotedFragments_loop (limit : Nat) (mode : Mode) :
    Loop ⟨limit, mode⟩ BeforeQuote id (· ≤ ·) quotedFragmentTurn
      (fun fuel left => quotedFragments fuel left) :=
  .of_advances (fun _ => le_rfl) (fun _ _ h => h)
    (fun _ _ hready => (quotedFragmentTurn_steady hready).reads.keeps mode)
    (fun fuel left => quotedFragments_repeats fuel left)

end Mcfunction.Parser
