import Mcfunction.Parser.Document
import Mcfunction.Proofs.Parser.Logic

/-!
# What Stands Between Two Places

The grammar of the trees that the parsers build. Each relation says when a piece of a tree
stands between two places of the text: with an argument `c`, the place where it starts, the
piece itself, and the place `d` right after it. The leaves are functions of the place and of
what the recognizers find there.

The relations mirror the parsers level by level: `ValueOfAt` takes the relations of the
containers inside, and `ValueAt` is defined by recursion on the levels that are left. So
what holds of every tree is proved by induction on that number and by cases on the relations,
and no parser has to be opened for it.

## Main definitions

* `ValueAt`, `ArgumentsAt`: values and the arguments of a command, by the levels that are left.
* `StatementsAt`: the statements from a place to the end of the text.
-/

namespace Mcfunction

/-! ### Leaves -/

namespace Cursor

variable (c : Cursor)

/-- The next `n` characters with their place. -/
def textRun (n : Nat) : TextRun :=
  ⟨c.textBetween 0 n, c.spanTo (c.advance n)⟩

/-- The next `n` characters as a bare string. -/
def bareString (n : Nat) : StringLiteral :=
  ⟨c.textBetween 0 n, .bare, c.spanTo (c.advance n)⟩

/-- The quoted string at the cursor. -/
def quotedString (quoted : Scan.Quoted) : StringLiteral :=
  ⟨c.textBetween 1 quoted.before, Parser.quoteAt c, c.spanTo (c.advance quoted.count)⟩

/-- The next `n` characters as a number, whose type letter is the last of them. -/
def number (n : Nat) (suffix : Option Char) : Number :=
  let digits := c.rest.take (if suffix.isSome then n - 1 else n)
  ⟨(Binary64.ofChars? digits).getD .nan, suffix, c.textBetween 0 n, c.spanTo (c.advance n)⟩

/-- The resource location whose parts have `space` and `path` characters. -/
def resourceLocation (space path : Nat) : ResourceLocation :=
  ⟨c.textBetween 0 space, c.textBetween (space + 1) (space + 1 + path),
    c.spanTo (c.advance (space + 1 + path))⟩

/-- The next `n` characters as an interpolation. -/
def interpolation (n : Nat) : Interpolation :=
  ⟨c.textBetween 2 (n - 1), c.spanTo (c.advance n)⟩

/-- The next `n` characters as a fake player. -/
def fakePlayer (n : Nat) : FakePlayer :=
  ⟨c.textBetween 1 n, c.spanTo (c.advance n)⟩

/-- The coordinate part between two counts of characters. -/
def coordinatePart (range : Nat × Nat) : CoordinatePart :=
  Parser.coordinatePart ((c.rest.drop range.1).take (range.2 - range.1))
    ⟨c.offsetAfter range.1, c.offsetAfter range.2⟩

/-- The coordinate triple whose parts stand between counts of characters. -/
def coordinates (ranges : Triple (Nat × Nat)) : Coordinates :=
  ⟨ranges.map c.coordinatePart, c.spanTo (c.advance ranges.z.2)⟩

/-- The comment at the cursor. -/
def comment : Comment :=
  let (tag, mark) := Scan.commentTag c.rest
  let body := c.advance tag
  let count := Scan.commentText body.rest
  Parser.commentOf (c.textBetween 0 tag) mark (body.rest.take count)
    (c.spanTo (body.advance count))

end Cursor


/-- A placeholder of malformed text. -/
structure PlaceholderAt (c : Cursor) (node : ErrorNode) (d : Cursor) : Prop where
  /-- It stands inside the statement and is not empty. -/
  placed : Placed c node.span d
  /-- It tells of an error in the text, and reaches as far as the error makes it skip. -/
  exists_error : ∃ error : ParseError, error.From c ∧ node.message = error.message ∧
    d.offset = Parser.skipEnd c error

/-! ### Interpolated text -/

/-- The pieces of interpolated text outside quotes. -/
inductive FragmentsAt (inKey : Bool) : Cursor → List Fragment → Cursor → Prop
  /-- No piece follows. -/
  | nil {c} : Scan.startsInterpolation c.rest = false → Scan.fragment inKey c.rest = none →
      FragmentsAt inKey c [] c
  /-- An interpolation. -/
  | interpolation {c d n fragments} : Scan.startsInterpolation c.rest →
      Scan.interpolation c.rest = .ok n → FragmentsAt inKey (c.advance n) fragments d →
      FragmentsAt inKey c (.interpolation (c.interpolation n) :: fragments) d
  /-- Text up to the next interpolation. -/
  | literal {c d n fragments} : Scan.startsInterpolation c.rest = false →
      Scan.fragment inKey c.rest = some n → FragmentsAt inKey (c.advance n) fragments d →
      FragmentsAt inKey c (.literal (c.textRun n) :: fragments) d

/-- The pieces of the next so many characters, which stand inside quotes. -/
inductive QuotedFragmentsAt : Nat → Cursor → List Fragment → Cursor → Prop
  /-- No piece follows. -/
  | nil {c} : QuotedFragmentsAt 0 c [] c
  /-- An interpolation. -/
  | interpolation {left c d n fragments} : Scan.startsInterpolation c.rest →
      Scan.interpolation c.rest = .ok n → n ≤ left →
      QuotedFragmentsAt (left - n) (c.advance n) fragments d →
      QuotedFragmentsAt left c (.interpolation (c.interpolation n) :: fragments) d
  /-- Text up to the next interpolation. -/
  | quoted {left c d n fragments} : 0 < n → n ≤ left →
      Scan.repeated Parser.quotedTextStep 0 (c.rest.take left) = n →
      QuotedFragmentsAt (left - n) (c.advance n) fragments d →
      QuotedFragmentsAt left c (.quoted (c.textRun n) :: fragments) d

/-- Text with interpolations. -/
inductive InterpolatedAt (inKey : Bool) : Cursor → Interpolated → Cursor → Prop
  /-- Between quotes. -/
  | quoted {c q fragments} : Scan.startsQuoted c.rest → Scan.quoted c.rest = .ok q →
      q.interpolated →
      QuotedFragmentsAt (q.before - 1) (c.advance 1) fragments (c.advance q.before) →
      InterpolatedAt inKey c ⟨fragments, Parser.quoteAt c, c.spanTo (c.advance q.count)⟩
        (c.advance q.count)
  /-- Outside quotes. -/
  | bare {c d fragments} : Scan.startsQuoted c.rest = false → c < d →
      FragmentsAt inKey c fragments d →
      InterpolatedAt inKey c ⟨fragments, .bare, c.spanTo d⟩ d

/-! ### Containers -/

/-- A key. -/
inductive KeyAt : Cursor → NbtKey → Cursor → Prop
  /-- Text with interpolations. -/
  | interpolated {c d argument} : Scan.startsInterpolated true c.rest →
      InterpolatedAt true c argument d → KeyAt c (.interpolated argument) d
  /-- A quoted string. -/
  | quoted {c q} : Scan.startsInterpolated true c.rest = false → Scan.startsQuoted c.rest →
      Scan.quoted c.rest = .ok q → KeyAt c (.plain (c.quotedString q)) (c.advance q.count)
  /-- A bare word. -/
  | bare {c n} : Scan.startsInterpolated true c.rest = false →
      Scan.startsQuoted c.rest = false → Scan.word c.rest = some n →
      KeyAt c (.plain (c.bareString n)) (c.advance n)

/-- One or more elements with commas between them, and the bracket that closes them. -/
inductive ElementsAt {α : Type} (element : Cursor → α → Cursor → Prop) (closer : Char) :
    Cursor → List α → Cursor → Prop
  /-- The last element. -/
  | last {c d value} : element c value d → d.skipTrivia.peek = some closer →
      ElementsAt element closer c [value] (d.skipTrivia.advance 1)
  /-- An element with a comma and more elements after it. -/
  | next {c d e value values} : element c value d → d.skipTrivia.peek = some ',' →
      ElementsAt element closer (d.skipTrivia.advance 1).skipTrivia values e →
      ElementsAt element closer c (value :: values) e

/-- A pair. -/
inductive PairAt (value : Cursor → NbtValue → Cursor → Prop) : Cursor → NbtPair → Cursor → Prop
  /-- A key, an operator and a value. -/
  | mk {c d e key operator inner} : KeyAt c key d →
      d.skipTrivia.peek.bind PairOperator.ofChar? = some operator →
      value (d.skipTrivia.advance 1).skipTrivia inner e →
      PairAt value c ⟨key, operator, inner, c.spanTo e⟩ e

/-- The list that the bracket at the cursor opens. -/
inductive ListOfAt (value : Cursor → NbtValue → Cursor → Prop) : Cursor → NbtList → Cursor → Prop
  /-- The empty list. -/
  | empty {c} : c.peek = some '[' → (c.advance 1).skipTrivia.peek = some ']' →
      ListOfAt value c ⟨.values [], c.spanTo ((c.advance 1).skipTrivia.advance 1)⟩
        ((c.advance 1).skipTrivia.advance 1)
  /-- A list of pairs. -/
  | pairs {c d pairs} : c.peek = some '[' → Scan.startsPair (c.advance 1).skipTrivia.rest →
      ElementsAt (PairAt value) ']' (c.advance 1).skipTrivia pairs d →
      ListOfAt value c ⟨.pairs pairs, c.spanTo d⟩ d
  /-- A list of values. -/
  | values {c d values} : c.peek = some '[' →
      Scan.startsPair (c.advance 1).skipTrivia.rest = false →
      ElementsAt value ']' (c.advance 1).skipTrivia values d →
      ListOfAt value c ⟨.values values, c.spanTo d⟩ d

/-- The compound that the brace at the cursor opens. -/
inductive CompoundOfAt (value : Cursor → NbtValue → Cursor → Prop) :
    Cursor → NbtCompound → Cursor → Prop
  /-- Pairs between braces. -/
  | mk {c d pairs} : c.peek = some '{' →
      ElementsAt (PairAt value) '}' (c.advance 1).skipTrivia pairs d →
      CompoundOfAt value c ⟨pairs, c.spanTo d⟩ d

/-- A value. -/
inductive ValueOfAt (list : Cursor → NbtList → Cursor → Prop)
    (compound : Cursor → NbtCompound → Cursor → Prop) : Cursor → NbtValue → Cursor → Prop
  /-- Text with interpolations. -/
  | interpolated {c d argument} : Scan.startsInterpolated false c.rest →
      InterpolatedAt false c argument d → ValueOfAt list compound c (.interpolated argument) d
  /-- A quoted string. -/
  | quoted {c q} : Scan.startsInterpolated false c.rest = false → Scan.startsQuoted c.rest →
      Scan.quoted c.rest = .ok q →
      ValueOfAt list compound c (.string (c.quotedString q)) (c.advance q.count)
  /-- A list. -/
  | list {c d inner} : list c inner d → ValueOfAt list compound c (.list inner) d
  /-- A compound. -/
  | compound {c d inner} : compound c inner d → ValueOfAt list compound c (.compound inner) d
  /-- A container that could not be parsed. -/
  | error {c d node} : c.peek = some '[' ∨ c.peek = some '{' → PlaceholderAt c node d →
      ValueOfAt list compound c (.error node) d
  /-- A resource location. -/
  | resource {c space path} : Scan.resourceNamespace c.rest = some space →
      Scan.path (c.rest.drop (space + 1)) = some path →
      ValueOfAt list compound c (.resource (c.resourceLocation space path))
        (c.advance (space + 1 + path))
  /-- A number. -/
  | number {c n suffix} : Scan.wholeNumber c.rest = some (n, suffix) →
      ValueOfAt list compound c (.number (c.number n suffix)) (c.advance n)
  /-- A truth value. -/
  | boolean {c n truth} : Scan.word c.rest = some n →
      c.textBetween 0 n = (if truth then "true" else "false") →
      ValueOfAt list compound c (.boolean ⟨truth, c.spanTo (c.advance n)⟩) (c.advance n)
  /-- A bare word. -/
  | word {c n} : Scan.word c.rest = some n → c.textBetween 0 n ≠ "true" →
      c.textBetween 0 n ≠ "false" →
      ValueOfAt list compound c (.string (c.bareString n)) (c.advance n)

/-- A value with so many levels left for containers. -/
def ValueAt : Nat → Cursor → NbtValue → Cursor → Prop
  | 0 => ValueOfAt (fun _ _ _ => False) (fun _ _ _ => False)
  | room + 1 => ValueOfAt (ListOfAt (ValueAt room)) (CompoundOfAt (ValueAt room))

/-- A list with so many levels left for containers, its own included. -/
def ListAt : Nat → Cursor → NbtList → Cursor → Prop
  | 0 => fun _ _ _ => False
  | room + 1 => ListOfAt (ValueAt room)

/-- A compound with so many levels left for containers, its own included. -/
def CompoundAt : Nat → Cursor → NbtCompound → Cursor → Prop
  | 0 => fun _ _ _ => False
  | room + 1 => CompoundOfAt (ValueAt room)

/-! ### Paths -/

/-- The lists and compounds that directly follow a segment's name. -/
inductive SuffixesAt (room : Nat) : Cursor → List PathSuffix → Cursor → Prop
  /-- No more follow. -/
  | nil {c} : c.peek ≠ some '[' → c.peek ≠ some '{' → SuffixesAt room c [] c
  /-- A list. -/
  | index {c d e list suffixes} : ListAt room c list d → SuffixesAt room d suffixes e →
      SuffixesAt room c (.index list :: suffixes) e
  /-- A compound. -/
  | filter {c d e compound suffixes} : CompoundAt room c compound d →
      SuffixesAt room d suffixes e → SuffixesAt room c (.filter compound :: suffixes) e

/-- The segments from the one whose name stands between `start` and the cursor. -/
inductive SegmentsAt (room : Nat) :
    Cursor → NbtKey → Cursor → List PathSegment → Cursor → Prop
  /-- The last segment. -/
  | last {start name c d suffixes} : SuffixesAt room c suffixes d → d.peek ≠ some '.' →
      SegmentsAt room start name c [⟨name, suffixes, start.spanTo d⟩] d
  /-- A segment with a point and more segments after it. -/
  | next {start name c d e f suffixes name' segments} : SuffixesAt room c suffixes d →
      d.peek = some '.' → KeyAt (d.advance 1) name' e →
      SegmentsAt room (d.advance 1) name' e segments f →
      SegmentsAt room start name c (⟨name, suffixes, start.spanTo d⟩ :: segments) f

/-- A path. -/
inductive PathAt (room : Nat) : Cursor → NbtPath → Cursor → Prop
  /-- A name and the segments from there on. -/
  | mk {c d e name segments} : KeyAt c name d → Parser.startsPathSuffix d.rest →
      SegmentsAt room c name d segments e → PathAt room c ⟨segments, c.spanTo e⟩ e

/-! ### Arguments -/

/-- A selector. -/
inductive SelectorAt (room : Nat) : Cursor → Selector → Cursor → Prop
  /-- A target alone. -/
  | target {c target} : c.peek = some '@' →
      (c.advance 1).peek.bind SelectorTarget.ofChar? = some target →
      (c.advance 2).peek ≠ some '[' →
      SelectorAt room c ⟨target, none, c.spanTo (c.advance 2)⟩ (c.advance 2)
  /-- A target and a filter. -/
  | filtered {c d target filter} : c.peek = some '@' →
      (c.advance 1).peek.bind SelectorTarget.ofChar? = some target →
      ListAt room (c.advance 2) filter d →
      SelectorAt room c ⟨target, some filter, c.spanTo d⟩ d

/-- An argument; `run` says what stands after a `run`, with the place of the `run` first. -/
inductive ArgumentAt (room : Nat) (run : Cursor → Cursor → RunClause → Cursor → Prop)
    (inMacro : Bool) : Cursor → Argument → Cursor → Prop
  /-- Text with interpolations. -/
  | interpolated {c d argument} : inMacro → Scan.startsInterpolated false c.rest →
      InterpolatedAt false c argument d → ArgumentAt room run inMacro c (.interpolated argument) d
  /-- A coordinate triple. -/
  | coordinates {c ranges} : Scan.coordinates c.rest = some ranges →
      ArgumentAt room run inMacro c (.coordinates (c.coordinates ranges))
        (c.advance ranges.z.2)
  /-- A quoted string. -/
  | quoted {c q} : Scan.startsInterpolated false c.rest = false → Scan.startsQuoted c.rest →
      Scan.quoted c.rest = .ok q →
      ArgumentAt room run inMacro c (.string (c.quotedString q)) (c.advance q.count)
  /-- A path. -/
  | path {c d path} : PathAt room c path d → ArgumentAt room run inMacro c (.path path) d
  /-- A selector. -/
  | selector {c d selector} : SelectorAt room c selector d →
      ArgumentAt room run inMacro c (.selector selector) d
  /-- A list. -/
  | list {c d list} : ListAt room c list d → ArgumentAt room run inMacro c (.list list) d
  /-- A compound. -/
  | compound {c d compound} : CompoundAt room c compound d →
      ArgumentAt room run inMacro c (.compound compound) d
  /-- A fake player. -/
  | fakePlayer {c n} : Scan.fakePlayer c.rest = some n →
      ArgumentAt room run inMacro c (.fakePlayer (c.fakePlayer n)) (c.advance n)
  /-- A resource location. -/
  | resource {c space path} : Scan.resourceNamespace c.rest = some space →
      Scan.path (c.rest.drop (space + 1)) = some path →
      ArgumentAt room run inMacro c (.resource (c.resourceLocation space path))
        (c.advance (space + 1 + path))
  /-- A number. -/
  | number {c n suffix} : Scan.wholeNumber c.rest = some (n, suffix) →
      ArgumentAt room run inMacro c (.number (c.number n suffix)) (c.advance n)
  /-- A truth value. -/
  | boolean {c n truth} : Scan.word c.rest = some n →
      c.textBetween 0 n = (if truth then "true" else "false") →
      ArgumentAt room run inMacro c (.boolean ⟨truth, c.spanTo (c.advance n)⟩) (c.advance n)
  /-- A run clause. -/
  | run {c d n clause} : Scan.word c.rest = some n → c.textBetween 0 n = "run" →
      Parser.startsSubcommand (c.rest.drop n) → run c (c.advance n) clause d →
      ArgumentAt room run inMacro c (.run clause) d
  /-- A bare word. -/
  | keyword {c n} : Scan.word c.rest = some n → c.textBetween 0 n ≠ "true" →
      c.textBetween 0 n ≠ "false" →
      (c.textBetween 0 n = "run" → Parser.startsSubcommand (c.rest.drop n) = false) →
      ArgumentAt room run inMacro c (.keyword (c.textRun n)) (c.advance n)

/-- The arguments of a command up to the end of its statement; `afterError` tells whether a
placeholder stands before them. -/
inductive ArgumentListAt (argument : Cursor → Argument → Cursor → Prop) :
    Bool → Cursor → List Argument → Cursor → Prop
  /-- Only trivia are left of the statement. -/
  | nil {afterError c} : Scan.atLineEnd c.skipTrivia.rest →
      ArgumentListAt argument afterError c [] c
  /-- An argument. -/
  | cons {afterError c d e first arguments} : Scan.atLineEnd c.skipTrivia.rest = false →
      (c.skipTrivia = c → afterError = false → c.peek = some '[' ∨ c.peek = some '{') →
      argument c.skipTrivia first d → ArgumentListAt argument false d arguments e →
      ArgumentListAt argument afterError c (first :: arguments) e
  /-- A placeholder. -/
  | error {afterError c d e node arguments} : Scan.atLineEnd c.skipTrivia.rest = false →
      PlaceholderAt c.skipTrivia node d → ArgumentListAt argument true d arguments e →
      ArgumentListAt argument afterError c (.error node :: arguments) e

/-! ### Commands -/

/-- A command. -/
inductive CommandAt (arguments : Cursor → List Argument → Cursor → Prop) :
    Cursor → Command → Cursor → Prop
  /-- A name and its arguments. -/
  | mk {c d n args} : Scan.commandName c.rest = some n → arguments (c.advance n) args d →
      CommandAt arguments c ⟨c.textRun n, args, c.spanTo d⟩ d

/-- The name of a macro command. -/
inductive MacroNameAt : Cursor → MacroName → Cursor → Prop
  /-- A name as written. -/
  | literal {c n} : Scan.commandName c.rest = some n →
      MacroNameAt c (.literal (c.textRun n)) (c.advance n)
  /-- An interpolation. -/
  | interpolation {c n} : Scan.startsInterpolation c.rest → Scan.interpolation c.rest = .ok n →
      MacroNameAt c (.interpolation (c.interpolation n)) (c.advance n)

/-- A macro command from its `$` on. -/
inductive MacroCommandAt (arguments : Cursor → List Argument → Cursor → Prop) :
    Cursor → MacroCommand → Cursor → Prop
  /-- A name and its arguments. -/
  | mk {c d e name args} : c.peek = some '$' → MacroNameAt (c.advance 1).skipTrivia name d →
      arguments d args e → MacroCommandAt arguments c ⟨name, args, c.spanTo e⟩ e

/-- What follows the `run` at the first place, with the relation of the arguments inside or
outside a macro line. -/
inductive RunClauseAt (arguments : Bool → Cursor → List Argument → Cursor → Prop)
    (inMacro : Bool) : Cursor → Cursor → RunClause → Cursor → Prop
  /-- A command. -/
  | command {start c d command} : CommandAt (arguments inMacro) c.skipTrivia command d →
      RunClauseAt arguments inMacro start c ⟨Parser.subcommandOf command, start.spanTo d⟩ d
  /-- A macro command with its `$`. -/
  | macroCommand {start c d command} : MacroCommandAt (arguments true) c.skipTrivia command d →
      RunClauseAt arguments inMacro start c ⟨.macroCommand command, start.spanTo d⟩ d

/-- The arguments of a command with so many levels left for containers and run clauses. -/
def ArgumentsAt : Nat → Bool → Cursor → List Argument → Cursor → Prop
  | 0, inMacro => ArgumentListAt (ArgumentAt 0 (fun _ _ _ _ => False) inMacro) false
  | room + 1, inMacro =>
    ArgumentListAt (ArgumentAt (room + 1) (RunClauseAt (ArgumentsAt room) inMacro) inMacro) false

/-! ### Statements -/

/-- A statement, with the place where its parser stops. -/
inductive StatementAt (arguments : Bool → Cursor → List Argument → Cursor → Prop) :
    Cursor → Statement → Cursor → Prop
  /-- A comment. -/
  | comment {c} : c.peek = some '#' →
      StatementAt arguments c (.comment c.comment)
        ((c.advance (Scan.commentTag c.rest).1).advance
          (Scan.commentText (c.rest.drop (Scan.commentTag c.rest).1)))
  /-- A command. -/
  | command {c d command} : CommandAt (arguments false) c command d →
      StatementAt arguments c (.command command) d
  /-- A macro command. -/
  | macroCommand {c d command} : MacroCommandAt (arguments true) c command d →
      StatementAt arguments c (.macroCommand command) d
  /-- The placeholder of a line that is none of these. -/
  | error {c} {node : ErrorNode} :
      node.span = c.spanTo (c.advance (Scan.trimmedStatement c.rest)) →
      StatementAt arguments c (.error node) c.statementEnd

/-- The statements from a place to the end of the text. -/
inductive StatementsAt (arguments : Bool → Cursor → List Argument → Cursor → Prop) :
    Cursor → List Statement → Prop
  /-- Only trivia are left. -/
  | nil {c} : c.skipTrivia.peek = none → StatementsAt arguments c []
  /-- A line ends. -/
  | newline {c statements} : c.skipTrivia.peek = some '\n' →
      StatementsAt arguments (c.skipTrivia.advance 1) statements →
      StatementsAt arguments c statements
  /-- A statement. -/
  | cons {c d first statements} : Scan.atLineEnd c.skipTrivia.rest = false →
      StatementAt arguments c.skipTrivia first d → StatementsAt arguments d statements →
      StatementsAt arguments c (first :: statements)

end Mcfunction
