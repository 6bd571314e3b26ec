import Mcfunction.Proofs.Spans.Text
import Mcfunction.Proofs.Statements
import Mcfunction.Tree.Outline

/-!
# Places of Nodes

The places of a tree are well nested: each node covers some text, and the nodes in it stand
inside of it, in order and apart from each other. What stands between two places of a text by the
grammar of the trees has this property.

## Main results

* `Outline.At.nested`: an outline that stands between two places of a text is well nested.
* `StatementAt.outlined`: the outline of a statement stands where the statement is read.
-/

namespace Mcfunction

/-! ### Outlines between places -/

mutual

/-- The node goes from `c` to `d`, and so do the nodes in it. -/
def Outline.At : Outline → Cursor → Cursor → Prop
  | .node span parts, c, d => c < d ∧ span = c.spanTo d ∧ Outline.AllAt parts c d

/-- The nodes stand between `c` and `d`, each after the one before. -/
def Outline.AllAt : List Outline → Cursor → Cursor → Prop
  | [], c, d => c ≤ d
  | part :: parts, c, d => ∃ a b, c ≤ a ∧ part.At a b ∧ Outline.AllAt parts b d

end

/-- The node covers some text, and the nodes in it stand inside of it in order, without touching
each other's text. -/
inductive Outline.Nested (text : String) : Outline → Prop
  /-- A node with the nodes in it. -/
  | node {span parts} : span.start < span.stop → (span.slice? text).isSome →
      (∀ part ∈ parts, span.start ≤ part.span.start ∧ part.span.stop ≤ span.stop) →
      parts.Pairwise (fun part later => part.span.stop ≤ later.span.start) →
      (∀ part ∈ parts, Outline.Nested text part) → Outline.Nested text (.node span parts)

namespace Outline

variable {text : String} {c d e : Cursor} {outline part : Outline} {parts : List Outline}

/-- A node has at least one character. -/
theorem At.lt (h : outline.At c d) : c < d := by
  obtain ⟨span, parts⟩ := outline
  exact h.1

/-- The span of a node goes from where the node starts to where it ends. -/
theorem At.span_eq (h : outline.At c d) : outline.span = c.spanTo d := by
  obtain ⟨span, parts⟩ := outline
  exact h.2.1

/-- Nodes in a row go forward. -/
theorem AllAt.le (h : AllAt parts c d) : c ≤ d := by
  induction parts generalizing c with
  | nil => exact h
  | cons part parts ih =>
      obtain ⟨a, b, hca, hpart, hparts⟩ := h
      exact hca.trans (hpart.lt.le.trans (ih hparts))

/-- Nodes that stand behind a place stand behind any that is earlier. -/
theorem AllAt.weaken_left (h : AllAt parts d e) (hcd : c ≤ d) : AllAt parts c e := by
  cases parts with
  | nil => exact hcd.trans h
  | cons part parts =>
      obtain ⟨a, b, hda, hpart, hparts⟩ := h
      exact ⟨a, b, hcd.trans hda, hpart, hparts⟩

/-- Nodes that stand in front of a place stand in front of any that is later. -/
theorem AllAt.weaken_right (h : AllAt parts c d) (hde : d ≤ e) : AllAt parts c e := by
  induction parts generalizing c with
  | nil => exact le_trans h hde
  | cons part parts ih =>
      obtain ⟨a, b, hca, hpart, hparts⟩ := h
      exact ⟨a, b, hca, hpart, ih hparts⟩

/-- A node and those behind it stand in a row. -/
theorem AllAt.cons (h : part.At c d) (h' : AllAt parts d e) : AllAt (part :: parts) c e :=
  ⟨c, d, le_rfl, h, h'⟩

/-- One node is a row. -/
theorem AllAt.single (h : part.At c d) : AllAt [part] c d :=
  .cons h le_rfl

/-- A node that holds no others. -/
theorem At.leaf {span : Span} (h : Placed c span d) : (Outline.leaf span).At c d :=
  ⟨h.lt, h.span_eq, h.le⟩

/-- A node around others. -/
theorem At.around {span : Span} (h : Placed c span d) (hparts : AllAt parts c d) :
    (Outline.node span parts).At c d :=
  ⟨h.lt, h.span_eq, hparts⟩

/-- All nodes start at the first place or later. -/
theorem AllAt.start_le (h : AllAt parts c d) (hpart : part ∈ parts) :
    c.offset ≤ part.span.start := by
  induction parts generalizing c with
  | nil => cases hpart
  | cons first parts ih =>
      obtain ⟨a, b, hca, hfirst, hparts⟩ := h
      rcases List.mem_cons.mp hpart with rfl | hmem
      · rw [hfirst.span_eq]
        exact Cursor.offset_le_of_le hca
      · have hab := Cursor.offset_le_of_le (hca.trans hfirst.lt.le)
        exact hab.trans (ih hparts hmem)

/-- All nodes stop at the last place or earlier. -/
theorem AllAt.stop_le (h : AllAt parts c d) (hpart : part ∈ parts) :
    part.span.stop ≤ d.offset := by
  induction parts generalizing c with
  | nil => cases hpart
  | cons first parts ih =>
      obtain ⟨a, b, -, hfirst, hparts⟩ := h
      rcases List.mem_cons.mp hpart with rfl | hmem
      · rw [hfirst.span_eq]
        exact Cursor.offset_le_of_le hparts.le
      · exact ih hparts hmem

/-- Of the nodes in a row each ends before the later ones start. -/
theorem AllAt.pairwise (h : AllAt parts c d) :
    parts.Pairwise fun part later => part.span.stop ≤ later.span.start := by
  induction parts generalizing c with
  | nil => exact .nil
  | cons first parts ih =>
      obtain ⟨a, b, -, hfirst, hparts⟩ := h
      refine .cons (fun later hlater => ?_) (ih hparts)
      rw [hfirst.span_eq]
      exact hparts.start_le hlater

/-- No two of the nodes have the same place. -/
theorem AllAt.nodup_spans (h : AllAt parts c d) : (parts.map Outline.span).Nodup := by
  induction parts generalizing c with
  | nil => exact .nil
  | cons first parts ih =>
      obtain ⟨a, b, -, hfirst, hparts⟩ := h
      refine List.nodup_cons.mpr ⟨fun hmem => ?_, ih hparts⟩
      obtain ⟨later, hlater, hspan⟩ := List.mem_map.mp hmem
      have hstart := hparts.start_le hlater
      rw [hspan, hfirst.span_eq] at hstart
      exact absurd (Cursor.offset_lt_of_lt hfirst.lt) (Nat.not_lt.mpr hstart)

/-- The span of a well-nested outline has its ends in order. -/
theorem Nested.start_le (h : outline.Nested text) : outline.span.start ≤ outline.span.stop := by
  cases h with
  | node hlt => exact hlt.le

mutual

/-- An outline that stands between two places of a text is well nested. -/
theorem At.nested {c d : Cursor} (htext : Cursor.start text ≤ c) :
    ∀ {outline : Outline}, outline.At c d → outline.Nested text
  | .node _ _, h => by
      obtain ⟨hlt, rfl, hparts⟩ := h
      obtain ⟨chars, hrest, hoff⟩ := hlt.le
      refine .node (Cursor.offset_lt_of_lt hlt) ?_ (fun part hpart => ?_) hparts.pairwise
        (AllAt.nested htext hparts)
      · rw [Cursor.slice?_spanTo htext hrest hoff]
        rfl
      · exact ⟨hparts.start_le hpart, hparts.stop_le hpart⟩

/-- So are several outlines. -/
theorem AllAt.nested {c d : Cursor} (htext : Cursor.start text ≤ c) :
    ∀ {parts : List Outline}, AllAt parts c d → ∀ part ∈ parts, part.Nested text
  | [], _ => List.forall_mem_nil _
  | _ :: _, h => by
      obtain ⟨a, b, hca, hfirst, hparts⟩ := h
      have hcb := htext.trans (hca.trans hfirst.lt.le)
      exact List.forall_mem_cons.mpr
        ⟨At.nested (htext.trans hca) hfirst, AllAt.nested hcb hparts⟩

end

end Outline

open Outline

variable {c d e : Cursor}

/-! ### Interpolated text -/

/-- The fragments of a bare macro argument stand in a row. -/
theorem FragmentsAt.outlined {inKey : Bool} {fragments : List Fragment}
    (h : FragmentsAt inKey c fragments d) :
    AllAt (fragments.map fun fragment => .leaf fragment.span) c d := by
  induction h with
  | nil => exact le_rfl
  | interpolation hstart hok _ ih =>
      obtain ⟨hpos, hline⟩ := Scan.inline_interpolation hstart hok
      exact .cons (.leaf (.inline hpos hline)) ih
  | literal _ hfragment _ ih =>
      have hline := Scan.inline_fragment hfragment
      exact .cons (.leaf (.inline (Scan.fragment_pos hfragment) hline)) ih

/-- A repeated step does not leave the text. -/
theorem Scan.repeated_le (step : List Char → Nat) (pending : Nat) (chars : List Char) :
    repeated step pending chars ≤ chars.length := by
  induction chars generalizing pending with
  | nil => simp
  | cons x chars ih =>
      cases pending with
      | zero =>
          rw [repeated]
          split
          · exact Nat.zero_le _
          · exact Nat.succ_le_succ (ih _)
      | succ pending => exact Nat.succ_le_succ (ih pending)

/-- The fragments within quotes stand in a row. -/
theorem QuotedFragmentsAt.outlined {left : Nat} {fragments : List Fragment}
    (h : QuotedFragmentsAt left c fragments d) :
    AllAt (fragments.map fun fragment => .leaf fragment.span) c d := by
  induction h with
  | nil => exact le_rfl
  | interpolation hstart hok _ _ ih =>
      obtain ⟨hpos, hline⟩ := Scan.inline_interpolation hstart hok
      exact .cons (.leaf (.inline hpos hline)) ih
  | @quoted left c d n fragments hpos hle hn _ ih =>
      have htake := Scan.repeated_le Parser.quotedTextStep 0 (c.rest.take left)
      rw [hn] at htake
      have hlen : n ≤ c.rest.length := htake.trans (List.length_take_le' _ _)
      exact .cons ⟨Cursor.lt_advance hpos hlen, rfl, Cursor.le_advance hlen⟩ ih

/-- The fragments of a macro argument stand in a row inside of it. -/
theorem InterpolatedAt.outlined {inKey : Bool} {argument : Interpolated}
    (h : InterpolatedAt inKey c argument d) : argument.outline.At c d := by
  refine .around h.placed ?_
  cases h with
  | @quoted q fragments hstart hok _ h =>
      have hline := Scan.inline_quoted hstart hok
      have hlen := hline.le_length
      rw [Scan.Quoted.count] at hlen ⊢
      have hopen : c ≤ c.advance 1 := Cursor.le_advance (by omega)
      have hclose : c.advance q.before ≤ c.advance (q.before + 1) :=
        Cursor.advance_le_advance (Nat.le_succ _) hlen
      exact (h.outlined.weaken_left hopen).weaken_right hclose
  | bare _ _ h => exact h.outlined

/-- A key goes from where it is read to where reading goes on. -/
theorem KeyAt.outlined {key : NbtKey} (h : KeyAt c key d) : key.outline.At c d := by
  have hplaced := h.placed
  cases h with
  | interpolated _ h => exact h.outlined
  | quoted => exact .leaf hplaced
  | bare => exact .leaf hplaced

/-! ### Containers -/

/-- The elements of a container stand in a row if each goes from where it is read to its end. -/
theorem ElementsAt.outlined {α : Type} {element : Cursor → α → Cursor → Prop} {closer : Char}
    {outline : α → Outline} {values : List α}
    (helement : ∀ c value d, element c value d → (outline value).At c d)
    (h : ElementsAt element closer c values d) : AllAt (values.map outline) c d := by
  induction h with
  | @last c d value hvalue hpeek =>
      have hclose : d.skipTrivia ≤ d.skipTrivia.advance 1 :=
        Cursor.le_advance_of_peek hpeek
      exact (AllAt.single (helement _ _ _ hvalue)).weaken_right (d.le_skipTrivia.trans hclose)
  | @next c d e value values hvalue hpeek _ ih =>
      have hcomma : d.skipTrivia ≤ d.skipTrivia.advance 1 :=
        Cursor.le_advance_of_peek hpeek
      have hnext := (d.le_skipTrivia.trans hcomma).trans (Cursor.le_skipTrivia _)
      exact .cons (helement _ _ _ hvalue) (ih.weaken_left hnext)

/-- A pair goes from its key to its value. -/
theorem PairAt.outlined {value : Cursor → NbtValue → Cursor → Prop} {pair : NbtPair}
    (hvalue : ∀ c inner d, value c inner d → inner.outline.At c d)
    (h : PairAt value c pair d) : pair.outline.At c d := by
  cases h with
  | @mk m _ _ _ inner hkey hoperator hinner =>
      have hkey := hkey.outlined
      have hinner := hvalue _ _ _ hinner
      obtain ⟨x, hpeek, -⟩ := Option.bind_eq_some_iff.mp hoperator
      have hmark : m.skipTrivia ≤ m.skipTrivia.advance 1 :=
        Cursor.le_advance_of_peek hpeek
      have hgap := (m.le_skipTrivia.trans hmark).trans (Cursor.le_skipTrivia _)
      refine ⟨hkey.lt.trans_le (hgap.trans hinner.lt.le), rfl, .cons hkey ?_⟩
      exact (AllAt.single hinner).weaken_left hgap

/-- The elements of a list stand in a row between the brackets. -/
theorem ListOfAt.outlined {value : Cursor → NbtValue → Cursor → Prop} {list : NbtList}
    (hforward : Forward value) (hvalue : ∀ c inner d, value c inner d → inner.outline.At c d)
    (h : ListOfAt value c list d) : list.outline.At c d := by
  have hplaced := h.placed hforward
  obtain ⟨items, span⟩ := list
  refine .around hplaced ?_
  have hopen : c.peek = some '[' → c ≤ (c.advance 1).skipTrivia := fun hpeek =>
    (Cursor.le_advance_of_peek hpeek).trans (Cursor.le_skipTrivia _)
  cases h with
  | empty hpeek hclose =>
      exact (hopen hpeek).trans (Cursor.le_advance_of_peek hclose)
  | pairs hpeek _ h =>
      rw [NbtItems.outlines, NbtPair.outlines_eq_map]
      exact (h.outlined fun _ _ _ h => h.outlined hvalue).weaken_left (hopen hpeek)
  | values hpeek _ h =>
      rw [NbtItems.outlines, NbtValue.outlines_eq_map]
      exact (h.outlined hvalue).weaken_left (hopen hpeek)

/-- The pairs of a compound stand in a row between the brackets. -/
theorem CompoundOfAt.outlined {value : Cursor → NbtValue → Cursor → Prop}
    {compound : NbtCompound} (hforward : Forward value)
    (hvalue : ∀ c inner d, value c inner d → inner.outline.At c d)
    (h : CompoundOfAt value c compound d) : compound.outline.At c d := by
  have hplaced := h.placed hforward
  obtain ⟨pairs, span⟩ := compound
  refine .around hplaced ?_
  obtain ⟨hpeek, h⟩ := h
  have hopen : c ≤ (c.advance 1).skipTrivia :=
    (Cursor.le_advance_of_peek hpeek).trans (Cursor.le_skipTrivia _)
  rw [NbtPair.outlines_eq_map]
  exact (h.outlined fun _ _ _ h => h.outlined hvalue).weaken_left hopen

/-- A value is nested if lists and compounds are. -/
theorem ValueOfAt.outlined {list : Cursor → NbtList → Cursor → Prop}
    {compound : Cursor → NbtCompound → Cursor → Prop} {value : NbtValue}
    (hlist : ∀ c inner d, list c inner d → inner.outline.At c d)
    (hcompound : ∀ c inner d, compound c inner d → inner.outline.At c d)
    (hplaced : Placed c value.span d) (h : ValueOfAt list compound c value d) :
    value.outline.At c d := by
  cases h with
  | interpolated _ h => exact h.outlined
  | list h => exact hlist _ _ _ h
  | compound h => exact hcompound _ _ _ h
  | quoted | error | resource | number | boolean | word => exact .leaf hplaced

/-- A value goes from where it is read to where reading goes on, and so do the nodes in it. -/
theorem ValueAt.outlined {room : Nat} {value : NbtValue} (h : ValueAt room c value d) :
    value.outline.At c d := by
  induction room generalizing c value d with
  | zero =>
      exact ValueOfAt.outlined (fun _ _ _ h => h.elim) (fun _ _ _ h => h.elim) h.placed h
  | succ room ih =>
      have hforward := ValueAt.forward room
      exact ValueOfAt.outlined (fun _ _ _ h => h.outlined hforward fun _ _ _ h => ih h)
        (fun _ _ _ h => h.outlined hforward fun _ _ _ h => ih h) h.placed h

/-- So does a list. -/
theorem ListAt.outlined {room : Nat} {list : NbtList} (h : ListAt room c list d) :
    list.outline.At c d := by
  cases room with
  | zero => exact h.elim
  | succ room => exact ListOfAt.outlined (ValueAt.forward room) (fun _ _ _ h => h.outlined) h

/-- So does a compound. -/
theorem CompoundAt.outlined {room : Nat} {compound : NbtCompound}
    (h : CompoundAt room c compound d) : compound.outline.At c d := by
  cases room with
  | zero => exact h.elim
  | succ room => exact CompoundOfAt.outlined (ValueAt.forward room) (fun _ _ _ h => h.outlined) h

/-! ### Paths -/

/-- The suffixes of a key stand in a row. -/
theorem SuffixesAt.outlined {room : Nat} {suffixes : List PathSuffix}
    (h : SuffixesAt room c suffixes d) : AllAt (suffixes.map PathSuffix.outline) c d := by
  induction h with
  | nil => exact le_rfl
  | index h _ ih => exact .cons h.outlined ih
  | filter h _ ih => exact .cons h.outlined ih

/-- The segments of a path stand in a row behind the first key. -/
theorem SegmentsAt.outlined {room : Nat} {start : Cursor} {name : NbtKey}
    {segments : List PathSegment} (hname : name.outline.At start c)
    (h : SegmentsAt room start name c segments d) :
    AllAt (segments.map PathSegment.outline) start d := by
  induction h with
  | last h _ =>
      exact .single ⟨hname.lt.trans_le h.within.le, rfl, .cons hname h.outlined⟩
  | @next start name c d e f suffixes name' segments h hpoint hkey _ ih =>
      have hnext : d ≤ d.advance 1 := Cursor.le_advance_of_peek hpoint
      have hfirst : (PathSegment.mk name suffixes (start.spanTo d)).outline.At start d :=
        ⟨hname.lt.trans_le h.within.le, rfl, .cons hname h.outlined⟩
      exact .cons hfirst ((ih hkey.outlined).weaken_left hnext)

/-- A path goes from its first key to the end of its last segment. -/
theorem PathAt.outlined {room : Nat} {path : NbtPath} (h : PathAt room c path d) :
    path.outline.At c d := by
  refine .around h.placed ?_
  obtain ⟨hkey, -, h⟩ := h
  exact h.outlined hkey.outlined

/-! ### Arguments -/

/-- A selector goes from its sign to the end of its filter. -/
theorem SelectorAt.outlined {room : Nat} {selector : Selector}
    (h : SelectorAt room c selector d) : selector.outline.At c d := by
  refine .around h.placed ?_
  have hplaced := h.placed
  cases h with
  | target => exact hplaced.le
  | filtered hat htarget h =>
      exact (AllAt.single h.outlined).weaken_left
        (Cursor.le_advance (inline_target hat htarget).le_length)

/-- A part of coordinates stands where it has been found. -/
theorem Cursor.coordinatePart_span (c : Cursor) (range : Nat × Nat) :
    (c.coordinatePart range).span = (c.advance range.1).spanTo (c.advance range.2) := by
  unfold Cursor.coordinatePart Parser.coordinatePart
  split <;> rfl

/-- The parts of a coordinate triple stand apart from each other. -/
theorem coordinates_outlined {ranges : Triple (Nat × Nat)}
    (h : Scan.coordinates c.rest = some ranges) :
    (c.coordinates ranges).outline.At c (c.advance ranges.z.2) := by
  obtain ⟨hx, hxy, hy, hyz, hz, hline⟩ := Scan.coordinates_eq_some h
  have hlen := hline.le_length
  have hpart : ∀ range : Nat × Nat, range.1 < range.2 → range.2 ≤ ranges.z.2 →
      (Outline.leaf (c.coordinatePart range).span).At (c.advance range.1)
        (c.advance range.2) := by
    intro range hlt hle
    have hstep := Cursor.advance_lt_advance (c := c) hlt (hle.trans hlen)
    exact ⟨hstep, c.coordinatePart_span range, hstep.le⟩
  refine .around (.inline (by omega) hline) ?_
  refine ⟨_, _, Cursor.le_advance (by omega), hpart ranges.x hx (by omega), ?_⟩
  refine ⟨_, _, Cursor.advance_le_advance hxy (by omega), hpart ranges.y hy (by omega), ?_⟩
  refine ⟨_, _, Cursor.advance_le_advance hyz (by omega), hpart ranges.z hz le_rfl, ?_⟩
  exact le_rfl

/-- An argument is nested if run clauses are. -/
theorem ArgumentAt.outlined {room : Nat} {run : Cursor → Cursor → RunClause → Cursor → Prop}
    {inMacro : Bool} {argument : Argument} (hplaced : Placed c argument.span d)
    (hrun : ∀ {start c clause d}, run start c clause d → start < c → clause.outline.At start d)
    (h : ArgumentAt room run inMacro c argument d) : argument.outline.At c d := by
  cases h with
  | interpolated _ _ h => exact h.outlined
  | coordinates h => exact coordinates_outlined h
  | path h => exact h.outlined
  | selector h => exact h.outlined
  | list h => exact h.outlined
  | compound h => exact h.outlined
  | run hword _ _ h =>
      exact hrun h (Cursor.lt_advance (Scan.word_pos hword) (Scan.inline_word hword).le_length)
  | quoted | fakePlayer | resource | number | boolean | keyword => exact .leaf hplaced

/-- The arguments of a list stand in a row if each goes from where it is read to its end. -/
theorem ArgumentListAt.outlined {argument : Cursor → Argument → Cursor → Prop}
    {afterError : Bool} {arguments : List Argument}
    (hargument : ∀ c value d, argument c value d → value.outline.At c d)
    (h : ArgumentListAt argument afterError c arguments d) :
    AllAt (Argument.outlines arguments) c d := by
  induction h with
  | nil => exact le_rfl
  | @cons _ c _ _ _ _ _ _ h _ ih =>
      exact (AllAt.cons (hargument _ _ _ h) ih).weaken_left c.le_skipTrivia
  | @error _ c _ _ _ _ _ h _ ih =>
      exact (AllAt.cons (At.leaf h.placed) ih).weaken_left c.le_skipTrivia

/-! ### Commands -/

/-- The arguments of a command stand between the places where they are read. -/
def ArgumentsOutlined (arguments : Cursor → List Argument → Cursor → Prop) : Prop :=
  ∀ c args d, arguments c args d → AllAt (Argument.outlines args) c d

/-- A command goes from its name to the end of its last argument. -/
theorem CommandAt.outlined {arguments : Cursor → List Argument → Cursor → Prop}
    {command : Command} (harguments : ArgumentsOutlined arguments)
    (h : CommandAt arguments c command d) : command.outline.At c d := by
  cases h with
  | @mk _ n args hname h =>
      have hline := Scan.inline_commandName hname
      have hleaf : (Outline.leaf (c.textRun n).span).At c (c.advance n) :=
        .leaf (.inline (Scan.commandName_pos hname) hline)
      have hargs := harguments _ _ _ h
      exact ⟨hleaf.lt.trans_le hargs.le, rfl, .cons hleaf hargs⟩

/-- A macro command goes from its dollar sign to the end of its last argument. -/
theorem MacroCommandAt.outlined {arguments : Cursor → List Argument → Cursor → Prop}
    {command : MacroCommand} (harguments : ArgumentsOutlined arguments)
    (h : MacroCommandAt arguments c command d) : command.outline.At c d := by
  cases h with
  | @mk m _ name args hdollar hname h =>
      have hopen : c ≤ (c.advance 1).skipTrivia :=
        (Cursor.le_advance_of_peek hdollar).trans (Cursor.le_skipTrivia _)
      have hleaf : (Outline.leaf name.span).At (c.advance 1).skipTrivia m := .leaf hname.placed
      have hargs := harguments _ _ _ h
      refine ⟨hopen.trans_lt (hleaf.lt.trans_le hargs.le), rfl, ?_⟩
      exact (AllAt.cons hleaf hargs).weaken_left hopen

/-- What a subcommand is called does not matter for its outline. -/
theorem subcommandOf_outline (command : Command) :
    (Parser.subcommandOf command).outline = command.outline := by
  obtain ⟨name, arguments, span⟩ := command
  unfold Parser.subcommandOf
  split <;> rfl

/-- A run clause goes from its word to the end of its subcommand. -/
theorem RunClauseAt.outlined {arguments : Bool → Cursor → List Argument → Cursor → Prop}
    {inMacro : Bool} {start : Cursor} {clause : RunClause}
    (harguments : ∀ inMacro, ArgumentsOutlined (arguments inMacro)) (hstart : start ≤ c)
    (h : RunClauseAt arguments inMacro start c clause d) : clause.outline.At start d := by
  cases h with
  | command h =>
      have hcommand := h.outlined (harguments _)
      have hstart := hstart.trans c.le_skipTrivia
      refine ⟨hstart.trans_lt hcommand.lt, rfl, ?_⟩
      rw [subcommandOf_outline]
      exact (AllAt.single hcommand).weaken_left hstart
  | macroCommand h =>
      have hcommand := h.outlined (harguments true)
      have hstart := hstart.trans c.le_skipTrivia
      exact ⟨hstart.trans_lt hcommand.lt, rfl, (AllAt.single hcommand).weaken_left hstart⟩

/-- Arguments stand in a row, whatever room for nesting was left. -/
theorem ArgumentsAt.outlined (room : Nat) (inMacro : Bool) :
    ArgumentsOutlined (ArgumentsAt room inMacro) := by
  intro c args d h
  induction room generalizing inMacro c args d with
  | zero =>
      refine ArgumentListAt.outlined (fun c value d h => ?_) h
      exact h.outlined (h.placed fun _ _ _ _ h => h.elim) fun h => h.elim
  | succ room ih =>
      have hplaced := ArgumentsAt.argumentsPlaced room
      refine ArgumentListAt.outlined (fun c value d h => ?_) h
      refine h.outlined (h.placed fun _ _ _ _ h => h.within hplaced) fun h hlt => ?_
      exact h.outlined (fun inMacro _ _ _ h => ih inMacro _ _ _ h) hlt.le

/-! ### Statements -/

namespace Scan

variable {chars : List Char}

/-- What is not blank is not trimmed off. -/
theorem trimmedStatement_pos (hblank : trivia chars = 0) (hline : atLineEnd chars = false) :
    0 < trimmedStatement chars := by
  rcases chars with _ | ⟨x, chars⟩
  · cases hline
  · have hx : isBlank x = false := by
      by_contra h
      have hone := trivia_append [x] chars (by simpa using h)
      simp only [List.cons_append, List.nil_append, List.length_singleton] at hone
      omega
    have hpos : 0 < statement (x :: chars) := statement_pos (by simpa [atLineEnd] using hline)
    obtain ⟨k, hk⟩ := Nat.exists_eq_succ_of_ne_zero hpos.ne'
    rw [trimmedStatement, hk, List.take_succ_cons, trimEnd, List.length_reverse]
    refine List.length_pos_iff.mpr fun hnil => ?_
    have hall := List.dropWhile_eq_nil_iff.mp hnil x (by simp)
    rw [hx] at hall
    cases hall

end Scan

/-- After a line without its trailing blanks comes only filler up to the end of the line. -/
theorem filled_trimmedStatement (c : Cursor) :
    Filled false (c.advance (Scan.trimmedStatement c.rest)) c.statementEnd := by
  have hle := Scan.trimmedStatement_le_statement c.rest
  have hlen := Scan.statement_le_length c.rest
  obtain ⟨k, hk⟩ := Nat.exists_eq_add_of_le hle
  have hblanks := Scan.isBlank_of_mem_drop_trimmedStatement c.rest
  rw [hk, List.take_add, List.drop_left' (List.length_take_of_le (hle.trans hlen))] at hblanks
  rw [Cursor.statementEnd, hk, ← Cursor.advance_advance]
  refine .advance ?_ (.of_blanks ?_)
  · rw [Cursor.advance_rest, List.length_drop]
    omega
  · rwa [Cursor.advance_rest]

/-- The outline of a statement stands where the statement is read, up to a place after which only
filler is left of its line. -/
theorem StatementAt.outlined {arguments : Bool → Cursor → List Argument → Cursor → Prop}
    {statement : Statement} (hplaced : ∀ inMacro, ArgumentsPlaced (arguments inMacro))
    (houtlined : ∀ inMacro, ArgumentsOutlined (arguments inMacro))
    (hblank : Scan.trivia c.rest = 0) (hline : Scan.atLineEnd c.rest = false)
    (h : StatementAt arguments c statement d) :
    ∃ e, statement.outline.At c e ∧ Filled false e d := by
  have hforward := h.forward hplaced hline
  cases h with
  | comment hpeek => exact ⟨_, .leaf ⟨hforward.1, hforward.2, c.comment_tag.2⟩, .refl _⟩
  | command h => exact ⟨d, h.outlined (houtlined false), .refl d⟩
  | macroCommand h => exact ⟨d, h.outlined (houtlined true), .refl d⟩
  | error hspan =>
      have hpos := Scan.trimmedStatement_pos hblank hline
      have hle := Scan.trimmedStatement_le_statement c.rest
      have hlen := hle.trans (Scan.statement_le_length c.rest)
      exact ⟨_, .leaf ⟨Cursor.lt_advance hpos hlen, .advance hle, hspan⟩,
        filled_trimmedStatement c⟩

end Mcfunction
