import Mcfunction.Parser.Options
import Mcfunction.Proofs.Modes
import Mcfunction.Proofs.Reading.Nodes
import Mcfunction.Proofs.Spans.Text
import Mcfunction.Tree.Written

/-!
# Leaves Are Faithful to the Source

What a leaf of a tree keeps of its text is the text that stands at its place: a name, a keyword or
a number is kept as it is, and the parts of a string, a resource location, an interpolation or a
comment, put together with the marks between them, are the source of the node.

An interpolated argument is faithful as a whole and in its pieces: each piece keeps its own text,
the pieces stand one right after the other, and they fill all that is between the quotes, although
quoted text is scanned once for its end and a second time for its pieces.

Directive comments drop the blanks around their key, so they are not covered.

## Main results

* `InterpolatedAt.faithful`: interpolated text is faithful as a whole and in its pieces.
* `Document.nodes_faithful`: all nodes of the document of a tolerant parse are faithful.
-/

namespace Mcfunction

/-! ### The text at a place -/

/-- The text of the span is `chars`. -/
def Span.Holds (text : String) (span : Span) (chars : List Char) : Prop :=
  span.slice? text = some (String.ofList chars)

/-- From the one place, `chars` lead to the other. -/
def Cursor.Spells (c : Cursor) (chars : List Char) (d : Cursor) : Prop :=
  c.rest = chars ++ d.rest ∧ d.offset = c.offset + byteWidth chars

namespace Cursor.Spells

variable {text : String} {c d e : Cursor} {chars chars' : List Char} {n : Nat}

/-- Nothing is spelled from a place to that place. -/
theorem refl (c : Cursor) : c.Spells [] c :=
  ⟨rfl, rfl⟩

/-- What is spelled in two steps is spelled in one. -/
theorem trans (h : c.Spells chars d) (h' : d.Spells chars' e) : c.Spells (chars ++ chars') e :=
  ⟨by rw [h.1, h'.1, List.append_assoc], by rw [h'.2, h.2, byteWidth_append, Nat.add_assoc]⟩

/-- The next characters are spelled on the way over them. -/
theorem advance (h : n ≤ c.rest.length) : c.Spells (c.rest.take n) (c.advance n) :=
  ⟨by rw [advance_rest, List.take_append_drop], advance_offset h⟩

/-- A piece that stands some way on. -/
theorem between {m : Nat} (hmn : m ≤ n) (h : n ≤ c.rest.length) :
    (c.advance m).Spells (c.textBetween m n).toList (c.advance n) := by
  have hlen : n - m ≤ (c.advance m).rest.length := by
    rw [advance_rest, List.length_drop]
    omega
  rw [textBetween, String.toList_ofList, ← advance_rest]
  have h := advance hlen
  rwa [advance_advance, Nat.add_sub_cancel' hmn] at h

/-- The first characters as text. -/
theorem front (h : n ≤ c.rest.length) : c.Spells (c.textBetween 0 n).toList (c.advance n) := by
  simpa using between (Nat.zero_le n) h

/-- The character that stands some way on. -/
theorem single {x : Char} {tail : List Char} (h : c.rest.drop n = x :: tail) :
    (c.advance n).Spells [x] (c.advance (n + 1)) := by
  have hone : 1 ≤ (c.advance n).rest.length := by
    rw [advance_rest, h, List.length_cons]
    exact Nat.succ_pos _
  have hspells := advance hone
  rwa [advance_advance, advance_rest, h] at hspells

/-- The character at the cursor. -/
theorem first {x : Char} {tail : List Char} (h : c.rest = x :: tail) :
    c.Spells [x] (c.advance 1) := by
  simpa using single (c := c) (n := 0) h

/-- What is spelled between two places is the text of the span between them. -/
theorem holds (htext : Cursor.start text ≤ c) (h : c.Spells chars d) :
    (c.spanTo d).Holds text chars :=
  slice?_spanTo htext h.1 h.2

end Cursor.Spells

/-! ### Faithful nodes -/

/-- The number of bytes of a quote. -/
def Quote.width (quote : Quote) : Nat :=
  if quote = .bare then 0 else 1

/-- The pieces stand one right after the other from one offset to another. -/
def Fragment.Adjoin : Nat → List Fragment → Nat → Prop
  | start, [], stop => start = stop
  | start, fragment :: fragments, stop =>
    fragment.span.start = start ∧ Fragment.Adjoin fragment.span.stop fragments stop

/-- The pieces stand one right after the other between two places, and each is spelled there. -/
inductive Fragment.Row : Cursor → List Fragment → Cursor → Prop
  /-- No piece. -/
  | nil {c} : Fragment.Row c [] c
  /-- A piece and those after it. -/
  | cons {c d e fragment fragments} : fragment.span = c.spanTo d →
      c.Spells fragment.source.toList d → Fragment.Row d fragments e →
      Fragment.Row c (fragment :: fragments) e

/-- An interpolation is its expression between `$(` and `)`. -/
def Interpolation.Faithful (text : String) (piece : Interpolation) : Prop :=
  piece.span.Holds text ('$' :: '(' :: piece.expression.toList ++ [')'])

/-- Text with interpolations is faithful as a whole and in its pieces, which adjoin each other
between the quotes. -/
structure Interpolated.Faithful (text : String) (argument : Interpolated) : Prop where
  /-- Its source text is what stands at its place. -/
  source : argument.span.Holds text argument.source.toList
  /-- So is the source text of each piece. -/
  fragments : ∀ fragment ∈ argument.fragments, fragment.span.Holds text fragment.source.toList
  /-- The pieces fill all that is between the quotes. -/
  adjoin : Fragment.Adjoin (argument.span.start + argument.quote.width) argument.fragments
    (argument.span.stop - argument.quote.width)

/-- The text that a macro name keeps is what stands at its place. -/
def MacroName.Faithful (text : String) : MacroName → Prop
  | .literal name => name.span.Holds text name.text.toList
  | .interpolation piece => piece.Faithful text

/-- The text that an argument keeps is what stands at its place. -/
def Argument.Faithful (text : String) : Argument → Prop
  | .number node => node.span.Holds text node.raw.toList
  | .boolean node => node.span.Holds text (if node.value then "true" else "false").toList
  | .fakePlayer node => node.span.Holds text ('#' :: node.name.toList)
  | .keyword node => node.span.Holds text node.text.toList
  | .coordinates _ | .string _ | .resource _ | .selector _ | .list _ | .compound _ | .path _
  | .run _ | .interpolated _ | .error _ => True

/-- The text that a value keeps is what stands at its place. -/
def NbtValue.Faithful (text : String) : NbtValue → Prop
  | .number node => node.span.Holds text node.raw.toList
  | .boolean node => node.span.Holds text (if node.value then "true" else "false").toList
  | .string _ | .resource _ | .list _ | .compound _ | .interpolated _ | .error _ => True

/-- The text that a node keeps is what stands at its place. What a command, an argument, a value
or a selector holds in nodes of its own is left to those. -/
def Node.Faithful (text : String) : Node → Prop
  | .command node => node.name.span.Holds text node.name.text.toList
  | .macroCommand node => node.name.Faithful text
  | .comment node => node.kind ≠ .directive →
      node.span.Holds text (node.tag.toList ++ (node.content.getD "").toList)
  | .argument node => node.Faithful text
  | .string node => node.span.Holds text node.written
  | .resource node => node.span.Holds text (node.space.toList ++ ':' :: node.path.toList)
  | .selector node => ∃ tail, node.span.Holds text ('@' :: node.target.char :: tail)
  | .value node => node.Faithful text
  | .interpolated node => node.Faithful text
  | .statement _ | .name _ | .error _ | .part _ | .list _ | .compound _ | .pair _ | .key _
  | .segment _ | .subcommand _ => True

variable {text : String} {c d : Cursor} {n : Nat}

/-! ### Leaves -/

/-- The next characters as a text run, a bare string or a number. -/
theorem Cursor.textBetween_holds (htext : Cursor.start text ≤ c) (h : n ≤ c.rest.length) :
    (c.spanTo (c.advance n)).Holds text (c.textBetween 0 n).toList :=
  (Cursor.Spells.front h).holds htext

/-- What is a word for a truth value is that word in the text. -/
theorem boolean_holds {truth : Bool} (htext : Cursor.start text ≤ c)
    (hword : Scan.word c.rest = some n)
    (h : c.textBetween 0 n = (if truth then "true" else "false")) :
    (c.spanTo (c.advance n)).Holds text (if truth then "true" else "false").toList := by
  rw [← h]
  exact Cursor.textBetween_holds htext (Scan.inline_word hword).le_length

/-- A quoted string has the same quote at both ends. -/
theorem quoted_spells {q : Scan.Quoted} (hstart : Scan.startsQuoted c.rest)
    (h : Scan.quoted c.rest = .ok q) :
    ∃ x, (Parser.quoteAt c).char? = some x ∧ 0 < q.before ∧ c.Spells [x] (c.advance 1) ∧
      (c.advance q.before).Spells [x] (c.advance q.count) := by
  have hquote : ∀ {x body}, x ≠ '\n' → (Parser.quoteAt c).char? = some x → c.rest = x :: body →
      0 < q.before ∧ c.Spells [x] (c.advance 1) ∧
        (c.advance q.before).Spells [x] (c.advance q.count) := by
    intro x body hx _ hrest
    rw [hrest] at h
    obtain ⟨k, tail, hbefore, -, hclose⟩ := Scan.quoted_eq_ok hx h
    have hdrop : c.rest.drop q.before = x :: tail := by
      rw [hbefore, hrest, List.drop_succ_cons, hclose]
    exact ⟨by omega, .first hrest, .single hdrop⟩
  obtain ⟨body, hrest | hrest⟩ := Scan.startsQuoted_iff.mp hstart
  · have hchar : (Parser.quoteAt c).char? = some '"' := by
      rw [Parser.quoteAt, Cursor.peek_of_cons hrest]
      rfl
    exact ⟨'"', hchar, hquote (by decide) hchar hrest⟩
  · have hchar : (Parser.quoteAt c).char? = some '\'' := by
      rw [Parser.quoteAt, Cursor.peek_of_cons hrest]
      rfl
    exact ⟨'\'', hchar, hquote (by decide) hchar hrest⟩

/-- A quoted string keeps its text and its quotes. -/
theorem quotedString_holds {q : Scan.Quoted} (htext : Cursor.start text ≤ c)
    (hstart : Scan.startsQuoted c.rest) (h : Scan.quoted c.rest = .ok q) :
    (c.quotedString q).span.Holds text (c.quotedString q).written := by
  obtain ⟨x, hchar, hpos, hopen, hclose⟩ := quoted_spells hstart h
  have hlen : q.before ≤ c.rest.length :=
    (Nat.le_succ _).trans (Scan.inline_quoted hstart h).le_length
  have hwritten : (c.quotedString q).written =
      [x] ++ ((c.textBetween 1 q.before).toList ++ [x]) := by
    simp [StringLiteral.written, Cursor.quotedString, hchar]
  rw [hwritten]
  exact (hopen.trans ((Cursor.Spells.between hpos hlen).trans hclose)).holds htext

/-- A resource location keeps its text, the colon included. -/
theorem resourceLocation_holds {space path : Nat} (htext : Cursor.start text ≤ c)
    (hspace : Scan.resourceNamespace c.rest = some space)
    (hpath : Scan.path (c.rest.drop (space + 1)) = some path) :
    (c.spanTo (c.advance (space + 1 + path))).Holds text
      ((c.textBetween 0 space).toList ++
        ':' :: (c.textBetween (space + 1) (space + 1 + path)).toList) := by
  obtain ⟨-, tail, hcolon⟩ := Scan.resourceNamespace_eq_some hspace
  have hlen := (Scan.inline_location hspace hpath).le_length
  exact ((Cursor.Spells.front (by omega)).trans ((Cursor.Spells.single hcolon).trans
    (.between (by omega) hlen))).holds htext

/-- A fake player keeps its text behind the hash sign. -/
theorem fakePlayer_holds (htext : Cursor.start text ≤ c)
    (h : Scan.fakePlayer c.rest = some n) :
    (c.spanTo (c.advance n)).Holds text ('#' :: (c.textBetween 1 n).toList) := by
  obtain ⟨name, k, hrest, rfl, hline⟩ := Scan.fakePlayer_eq_some h
  have hlen : k + 1 ≤ c.rest.length := by simpa [hrest] using hline.le_length
  exact ((Cursor.Spells.first hrest).trans (.between (by omega) hlen)).holds htext

/-- An interpolation keeps what stands between its parentheses. -/
theorem interpolation_spells (hstart : Scan.startsInterpolation c.rest)
    (h : Scan.interpolation c.rest = .ok n) :
    c.Spells ('$' :: '(' :: (c.interpolation n).expression.toList ++ [')']) (c.advance n) := by
  obtain ⟨body, hrest⟩ := Scan.startsInterpolation_iff.mp hstart
  obtain ⟨k, tail, rfl, hline, hclose⟩ := Scan.interpolation_eq_ok hstart h
  have hlen := hline.le_length
  have hparen : (c.advance 1).Spells ['('] (c.advance 2) := .single (by rw [hrest]; rfl)
  have hopen : c.Spells ['$', '('] (c.advance 2) := (Cursor.Spells.first hrest).trans hparen
  have hbody := Cursor.Spells.between (c := c) (m := 2) (n := k + 2) (by omega) (by omega)
  exact hopen.trans (hbody.trans (.single hclose))

/-- The name of a macro command keeps its text. -/
theorem macroName_faithful {name : MacroName} (htext : Cursor.start text ≤ c)
    (h : MacroNameAt c name d) : name.Faithful text := by
  cases h with
  | literal h => exact Cursor.textBetween_holds htext (Scan.inline_commandName h).le_length
  | interpolation hstart hok => exact (interpolation_spells hstart hok).holds htext

/-- A selector stands where its sign and its letter are. -/
theorem SelectorAt.exists_holds {room : Nat} {selector : Selector}
    (htext : Cursor.start text ≤ c) (h : SelectorAt room c selector d) :
    ∃ tail, selector.span.Holds text ('@' :: selector.target.char :: tail) := by
  have htarget : ∀ {target : SelectorTarget}, c.peek = some '@' →
      (c.advance 1).peek.bind SelectorTarget.ofChar? = some target →
      c.Spells ['@', target.char] (c.advance 2) := by
    intro target hat htarget
    obtain ⟨rest, hrest⟩ := List.head?_eq_some_iff.mp hat
    obtain ⟨x, hpeek, hx⟩ := Option.bind_eq_some_iff.mp htarget
    rw [Cursor.peek, Cursor.advance_rest] at hpeek
    obtain ⟨tail, htail⟩ := List.head?_eq_some_iff.mp hpeek
    obtain rfl : x = target.char := by
      unfold SelectorTarget.ofChar? at hx
      split at hx <;> cases hx <;> rfl
    exact (Cursor.Spells.first hrest).trans (.single htail)
  cases h with
  | target hat hchar _ => exact ⟨[], (htarget hat hchar).holds htext⟩
  | filtered hat hchar h =>
      obtain ⟨chars, hrest⟩ := h.placed.le
      exact ⟨chars, ((htarget hat hchar).trans hrest).holds htext⟩

/-- The text of a comment is its body, unless it is a directive. -/
theorem commentOf_content {tag : String} {mark : Option Char} {body : List Char} {span : Span}
    (hkind : (Parser.commentOf tag mark body span).kind ≠ .directive) :
    ((Parser.commentOf tag mark body span).content.getD "").toList = body := by
  have hbody : ((Parser.nonempty? body).getD "").toList = body := by
    cases body <;> simp [Parser.nonempty?]
  rcases mark with _ | mark
  · exact hbody
  · by_cases hmark : mark = '>'
    · subst hmark
      exact absurd rfl hkind
    · unfold Parser.commentOf
      split <;> simp_all

/-- A comment that is no directive is its tag and its text. -/
theorem comment_holds (htext : Cursor.start text ≤ c) (hkind : c.comment.kind ≠ .directive) :
    c.comment.span.Holds text
      (c.comment.tag.toList ++ (c.comment.content.getD "").toList) := by
  have htag := (Scan.inline_commentTag c.rest).le_length
  obtain ⟨htagText, hspan⟩ := c.comment_tag
  have hcount : Scan.commentText (c.rest.drop (Scan.commentTag c.rest).1) ≤
      (c.advance (Scan.commentTag c.rest).1).rest.length := by
    rw [Cursor.advance_rest]
    exact (Scan.commentText_le_statement _).trans (Scan.statement_le_length _)
  have hcontent : (c.comment.content.getD "").toList =
      (c.advance (Scan.commentTag c.rest).1).rest.take
        (Scan.commentText (c.rest.drop (Scan.commentTag c.rest).1)) := by
    rw [← Cursor.advance_rest]
    exact commentOf_content hkind
  rw [htagText, hspan, hcontent]
  exact ((Cursor.Spells.front htag).trans (.advance hcount)).holds htext

/-! ### Interpolated text -/

/-- The source of an interpolation as a piece. -/
theorem Fragment.source_interpolation (piece : Interpolation) :
    (Fragment.interpolation piece).source.toList =
      '$' :: '(' :: piece.expression.toList ++ [')'] := by
  simp [Fragment.source]

/-- An interpolation and the pieces behind it are spelled one after the other. -/
theorem Fragment.Row.interpolation {fragments : List Fragment}
    (hstart : Scan.startsInterpolation c.rest) (hok : Scan.interpolation c.rest = .ok n)
    (h : Fragment.Row (c.advance n) fragments d) :
    Fragment.Row c (.interpolation (c.interpolation n) :: fragments) d := by
  refine .cons rfl ?_ h
  rw [Fragment.source_interpolation]
  exact interpolation_spells hstart hok

/-- The fragments of a bare macro argument are spelled one after the other. -/
theorem FragmentsAt.row {inKey : Bool} {fragments : List Fragment}
    (h : FragmentsAt inKey c fragments d) : Fragment.Row c fragments d := by
  induction h with
  | nil => exact .nil
  | interpolation hstart hok _ ih => exact .interpolation hstart hok ih
  | literal _ hn _ ih => exact .cons rfl (.front (Scan.inline_fragment hn).le_length) ih

/-- The fragments within quotes are spelled one after the other. -/
theorem QuotedFragmentsAt.row {left : Nat} {fragments : List Fragment}
    (hleft : left ≤ c.rest.length) (h : QuotedFragmentsAt left c fragments d) :
    Fragment.Row c fragments d := by
  induction h with
  | nil => exact .nil
  | @interpolation left c _ n _ hstart hok hle _ ih =>
      refine .interpolation hstart hok (ih ?_)
      rw [Cursor.advance_rest, List.length_drop]
      omega
  | @quoted left c _ n _ _ hle _ _ ih =>
      refine .cons rfl (.front (by omega)) (ih ?_)
      rw [Cursor.advance_rest, List.length_drop]
      omega

namespace Fragment.Row

variable {fragments : List Fragment}

/-- Pieces one after the other spell what they are joined to. -/
theorem spells (h : Row c fragments d) :
    c.Spells (String.join (fragments.map Fragment.source)).toList d := by
  induction h with
  | nil => exact .refl _
  | cons _ hspells _ ih => simpa using hspells.trans ih

/-- Pieces one after the other go forward. -/
theorem le (h : Row c fragments d) : c ≤ d :=
  ⟨_, h.spells⟩

/-- Pieces one after the other adjoin. -/
theorem adjoin (h : Row c fragments d) : Fragment.Adjoin c.offset fragments d.offset := by
  induction h with
  | nil => rfl
  | cons hspan _ _ ih => exact ⟨by rw [hspan]; rfl, by rw [hspan]; exact ih⟩

/-- The span of each piece holds its text. -/
theorem holds (htext : Cursor.start text ≤ c) (h : Row c fragments d) :
    ∀ fragment ∈ fragments, fragment.span.Holds text fragment.source.toList := by
  induction h with
  | nil => exact List.forall_mem_nil _
  | cons hspan hspells _ ih =>
      refine List.forall_mem_cons.mpr ⟨hspan ▸ hspells.holds htext, ih (htext.trans ⟨_, hspells⟩)⟩

end Fragment.Row

/-- Text with interpolations is faithful however it is quoted. -/
theorem InterpolatedAt.faithful {inKey : Bool} {argument : Interpolated}
    (htext : Cursor.start text ≤ c) (h : InterpolatedAt inKey c argument d) :
    argument.Faithful text := by
  cases h with
  | @quoted q fragments hstart hok _ h =>
      obtain ⟨x, hchar, hpos, hopen, hclose⟩ := quoted_spells hstart hok
      have hlen := (Scan.inline_quoted hstart hok).le_length
      have hcount : q.count = q.before + 1 := rfl
      have hrow := h.row (by rw [Cursor.advance_rest, List.length_drop]; omega)
      have hbare : Parser.quoteAt c ≠ .bare := by
        intro hbare
        rw [hbare] at hchar
        cases hchar
      have hwidth : (Parser.quoteAt c).width = 1 := if_neg hbare
      -- Quotes take one byte each, so the places after and before them are one offset away.
      have hone : x.utf8Size = 1 := by
        unfold Parser.quoteAt at hchar
        split at hchar <;> cases hchar <;> rfl
      have hfirst : (c.advance 1).offset = c.offset + 1 := by simpa [hone] using hopen.2
      have hlast : (c.advance q.count).offset = (c.advance q.before).offset + 1 := by
        simpa [hone] using hclose.2
      refine ⟨?_, ?_, ?_⟩
      · have hsource : (Interpolated.mk fragments (Parser.quoteAt c)
            (c.spanTo (c.advance q.count))).source.toList =
            [x] ++ ((String.join (fragments.map Fragment.source)).toList ++ [x]) := by
          simp [Interpolated.source, hchar]
        rw [hsource]
        exact (hopen.trans (hrow.spells.trans hclose)).holds htext
      · exact hrow.holds (htext.trans ⟨_, hopen⟩)
      · have hadjoin := hrow.adjoin
        rw [hfirst] at hadjoin
        rw [hwidth, Cursor.spanTo, hlast, Nat.add_sub_cancel]
        exact hadjoin
  | @bare d fragments _ _ h =>
      refine ⟨?_, h.row.holds htext, h.row.adjoin⟩
      have hsource : (Interpolated.mk fragments .bare (c.spanTo d)).source.toList =
          (String.join (fragments.map Fragment.source)).toList := by
        simp [Interpolated.source, Quote.char?]
      rw [hsource]
      exact h.row.spells.holds htext

/-! ### All nodes -/

/-- The text that an argument keeps stands at its place. -/
theorem ArgumentAt.faithful {room : Nat} {run : Cursor → Cursor → RunClause → Cursor → Prop}
    {inMacro : Bool} {argument : Argument} (htext : Cursor.start text ≤ c)
    (h : ArgumentAt room run inMacro c argument d) : argument.Faithful text := by
  cases h with
  | number hnumber =>
      have hnumber := Scan.wholeNumber_eq_some hnumber
      exact Cursor.textBetween_holds htext (Scan.inline_suffixedNumber hnumber).le_length
  | boolean hword htruth => exact boolean_holds htext hword htruth
  | fakePlayer h => exact fakePlayer_holds htext h
  | keyword hword => exact Cursor.textBetween_holds htext (Scan.inline_word hword).le_length
  | _ => trivial

/-- The text that a value keeps stands at its place. -/
theorem ValueOfAt.faithful {list : Cursor → NbtList → Cursor → Prop}
    {compound : Cursor → NbtCompound → Cursor → Prop} {value : NbtValue}
    (htext : Cursor.start text ≤ c) (h : ValueOfAt list compound c value d) :
    value.Faithful text := by
  cases h with
  | number hnumber =>
      have hnumber := Scan.wholeNumber_eq_some hnumber
      exact Cursor.textBetween_holds htext (Scan.inline_suffixedNumber hnumber).le_length
  | boolean hword htruth => exact boolean_holds htext hword htruth
  | _ => trivial

/-- A node that is read from a text is faithful to it. -/
theorem Node.ReadFrom.faithful {node : Node} (h : node.ReadFrom (.start text)) :
    node.Faithful text := by
  cases node with
  | command node =>
      obtain ⟨_, _, c, _, htext, ⟨hname, -⟩, -⟩ := h
      exact Cursor.textBetween_holds htext (Scan.inline_commandName hname).le_length
  | macroCommand node =>
      rcases h with ⟨_, c, _, htext, hdollar, hname, -⟩ |
        ⟨_, _, c, _, _, htext, ⟨hname, -⟩, -, rfl⟩
      · have hopen := Cursor.le_advance_of_peek hdollar
        exact macroName_faithful (htext.trans (hopen.trans (Cursor.le_skipTrivia _))) hname
      · exact Cursor.textBetween_holds htext (Scan.inline_commandName hname).le_length
  | comment node =>
      obtain ⟨c, htext, -, rfl⟩ := h
      exact comment_holds htext
  | argument node =>
      rcases h with ⟨_, rfl⟩ | ⟨_, _, _, c, d, htext, h⟩
      · trivial
      · exact h.faithful htext
  | string node =>
      obtain ⟨c, htext, ⟨q, hstart, hok, -, rfl⟩ | ⟨n, hword, rfl⟩⟩ := h
      · exact quotedString_holds htext hstart hok
      · exact Cursor.textBetween_holds htext (Scan.inline_word hword).le_length
  | resource node =>
      obtain ⟨c, space, path, htext, hspace, hpath, rfl⟩ := h
      exact resourceLocation_holds htext hspace hpath
  | selector node =>
      obtain ⟨_, c, d, htext, h⟩ := h
      exact h.exists_holds htext
  | value node =>
      obtain ⟨_, _, c, d, htext, h⟩ := h
      exact h.faithful htext
  | interpolated node =>
      obtain ⟨_, c, d, htext, -, h⟩ := h
      exact h.faithful htext
  | _ => trivial

/-- The tolerant parse of a text ends with a document in which every node is faithful to the
text. -/
theorem Document.nodes_faithful (text : String) (options : ParseOptions) :
    ∃ result, Document.parseTolerant text options = .ok result ∧
      ∀ node ∈ result.document.nodes, node.Faithful text := by
  obtain ⟨document, log, next, hrun, hstatements⟩ := Document.exists_run_tolerant text options
  refine ⟨⟨document, diagnosticsOf log⟩, ?_, fun node hnode => ?_⟩
  · rw [Document.parseTolerant, hrun]
  · exact (hstatements.nodes_readFrom le_rfl node hnode).faithful

/-- What a comment, a macro line, text with interpolations or a selector keeps of its text. -/
def Node.kept? : Node → Option (List Char)
  | .comment node => some (node.tag.toList ++ (node.content.getD "").toList)
  | .macroCommand ⟨.literal word, _, _⟩ => some word.text.toList
  | .interpolated node => some node.source.toList
  | .selector node => some ['@', node.target.char]
  | _ => none

/-- A comment and a macro line with an argument in quotes and a selector: what these keep, next to
the text at their places. -/
theorem Document.nodes_faithful_macro : ∃ result,
    Document.parseTolerant "# a\n$say \"b$(c)\" @e[d=1]" {} = .ok result ∧
      (∀ node ∈ result.document.nodes, node.Faithful "# a\n$say \"b$(c)\" @e[d=1]") ∧
      (result.document.nodes.filterMap fun node => node.kept?.map fun kept =>
        (String.ofList kept, node.span.slice? "# a\n$say \"b$(c)\" @e[d=1]")) =
        [("# a", some "# a"), ("say", some "$say \"b$(c)\" @e[d=1]"),
          ("\"b$(c)\"", some "\"b$(c)\""), ("@e", some "@e[d=1]")] := by
  obtain ⟨result, hresult, hfaithful⟩ :=
    Document.nodes_faithful "# a\n$say \"b$(c)\" @e[d=1]" {}
  have hkept : (Document.parseTolerant "# a\n$say \"b$(c)\" @e[d=1]" {}).map
      (fun result => result.document.nodes.filterMap fun node => node.kept?.map fun kept =>
        (String.ofList kept, node.span.slice? "# a\n$say \"b$(c)\" @e[d=1]")) =
      .ok [("# a", some "# a"), ("say", some "$say \"b$(c)\" @e[d=1]"),
        ("\"b$(c)\"", some "\"b$(c)\""), ("@e", some "@e[d=1]")] := by
    decide +kernel
  rw [hresult] at hkept
  exact ⟨result, hresult, hfaithful, Except.ok.inj hkept⟩

end Mcfunction
