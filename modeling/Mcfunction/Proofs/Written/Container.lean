import Mcfunction.Proofs.Written.Leaf
import Mcfunction.Tree.Depth

/-!
# Reading Back Containers

The text of a printable container is read as that container, by recursion on the levels that
are left. An element is read up to the comma or the bracket after it, and what it starts with
is neither trivia nor a closing bracket, so the separators are seen for what they are. Whether
a list holds pairs is decided on the text of its first element.

## Main results

* `startsPair_pair`, `startsPair_value`: the look ahead tells pairs from values.
* `value_parses`, `list_parses`, `compound_parses`: with as many levels left as the tree nests,
  its text is read as the tree.
-/

namespace Mcfunction

/-! ### How elements start -/

/-- Characters with which an element can start: they are no trivia and close nothing. -/
def Scan.startsElement (c : Char) : Bool :=
  !isBlank c && c != '\\' && c != '\n' && !endsValue c

/-- The text of an element starts as elements do. -/
def StartsElement (text : List Char) : Prop :=
  ∃ x rest, text = x :: rest ∧ Scan.startsElement x

/-- What elements do not start with, character by character. -/
theorem Scan.startsElement_iff {x : Char} : startsElement x ↔
    isBlank x = false ∧ x ≠ '\\' ∧ x ≠ '\n' ∧ endsValue x = false := by
  simp [startsElement, and_assoc]

/-- More text behind an element does not change how it starts. -/
theorem StartsElement.append {text : List Char} (h : StartsElement text) (tail : List Char) :
    StartsElement (text ++ tail) := by
  obtain ⟨x, rest, rfl, hx⟩ := h
  exact ⟨x, rest ++ tail, rfl, hx⟩

/-- Elements with commas between them start as the first of them. -/
theorem StartsElement.intercalate {texts : List (List Char)} (hne : texts ≠ [])
    (h : ∀ text ∈ texts, StartsElement text) : StartsElement ([','].intercalate texts) := by
  rcases texts with _ | ⟨text, _ | ⟨next, texts⟩⟩
  · exact absurd rfl hne
  · rw [List.intercalate_singleton]
    exact h text List.mem_cons_self
  · rw [List.intercalate_cons_cons, List.append_assoc]
    exact (h text List.mem_cons_self).append _

/-- Scalars start as elements do. -/
theorem Row.startsElement {text : List Char} (h : Row Scan.isScalarChar text) :
    StartsElement text := by
  obtain ⟨x, rest, rfl⟩ := List.exists_cons_of_ne_nil h.1
  have hx := h.2 x List.mem_cons_self
  refine ⟨x, rest, rfl, Scan.startsElement_iff.mpr ⟨?_, ?_, ?_, ?_⟩⟩
  · exact Scan.isBlank_of_isScalarChar hx
  · exact Scan.ne_of_class hx (by decide)
  · exact Scan.ne_of_class hx (by decide)
  · exact Scan.endsValue_of_isScalarChar hx

/-- Quoted strings start as elements do. -/
theorem StringLiteral.Quoted.startsElement {literal : StringLiteral} (h : literal.Quoted) :
    StartsElement literal.written := by
  obtain ⟨quote, -, hquote, -, hwritten⟩ := h.exists_eq
  have hwritten := hwritten []
  rw [List.append_nil] at hwritten
  rw [hwritten]
  rcases hquote with rfl | rfl
  · exact ⟨_, _, rfl, by decide⟩
  · exact ⟨_, _, rfl, by decide⟩

/-- Keys start as elements do. -/
theorem NbtKey.Printable.startsElement {key : NbtKey} (h : key.Printable) :
    StartsElement key.written := by
  cases h with
  | quoted h => exact h.startsElement
  | bare h => exact (h.mono Scan.isScalarChar_of_isWordChar).startsElement

/-- Values start as elements do. -/
theorem NbtValue.Printable.startsElement {value : NbtValue} (h : value.Printable) :
    StartsElement value.written := by
  cases h with
  | string h => exact h.startsElement
  | number h => exact h.row.1.startsElement
  | resource h => exact h.row.startsElement
  | @boolean boolean => exact (boolean.row.mono Scan.isScalarChar_of_isWordChar).startsElement
  | @list list => exact ⟨'[', _, list.written_eq, by decide⟩
  | @compound compound => exact ⟨'{', _, compound.written_eq, by decide⟩

/-- Pairs start as elements do. -/
theorem NbtPair.Printable.startsElement {pair : NbtPair} (h : pair.Printable) :
    StartsElement pair.written := by
  cases h with
  | mk hkey _ => exact hkey.startsElement.append _

/-! ### Pairs or values -/

/-- A pair is taken for one by the look-ahead. -/
theorem startsPair_pair {pair : NbtPair} (h : pair.Printable) (tail : List Char) :
    Scan.startsPair (pair.written ++ tail) := by
  cases h with
  | @mk key operator value span hkey hvalue =>
      have hwritten : NbtPair.written ⟨key, operator, value, span⟩ ++ tail =
          key.written ++ operator.char :: (value.written ++ tail) := by
        simp [NbtPair.written]
      rw [hwritten]
      cases hkey with
      | @quoted literal h =>
          have hends : Scan.isBlank operator.char = false ∧ operator.char ≠ '\\' := by
            cases operator <;> decide
          obtain ⟨quote, -, hquote, hbody, hliteral⟩ := h.exists_eq
          rw [NbtKey.written, hliteral, Scan.startsPair_body hbody hquote hends.1 hends.2]
          exact Scan.isOperator_char operator
      | bare h => exact Scan.startsPair_row h operator

/-- A value of any kind but a resource location is not taken for a pair. -/
theorem startsPair_value {value : NbtValue} {x : Char} {tail : List Char}
    (h : value.Printable) (hresource : ∀ location, value ≠ .resource location)
    (hx : Scan.endsValue x) : Scan.startsPair (value.written ++ x :: tail) = false := by
  cases h with
  | @string literal h =>
      have hinert := Scan.Inert.of_endsValue hx
      obtain ⟨quote, -, hquote, hbody, hliteral⟩ := h.exists_eq
      rw [NbtValue.written, hliteral, Scan.startsPair_body hbody hquote hinert.blank hinert.slash,
        hinert.operator]
  | number h => exact Scan.startsPair_scalar h.row.1 h.row.2 hx
  | resource => exact absurd rfl (hresource _)
  | @boolean boolean =>
      refine Scan.startsPair_scalar (boolean.row.mono Scan.isScalarChar_of_isWordChar) ?_ hx
      exact boolean.colon_notMem
  | @list list =>
      rw [NbtValue.written, list.written_eq]
      rfl
  | @compound compound =>
      rw [NbtValue.written, compound.written_eq]
      rfl

/-- What follows the first of several elements ends it. -/
theorem exists_intercalate_eq (text : List Char) (texts : List (List Char)) (tail : List Char)
    {closer : Char} (hcloser : Scan.endsValue closer) :
    ∃ x rest, [','].intercalate (text :: texts) ++ closer :: tail = text ++ x :: rest ∧
      Scan.endsValue x := by
  rcases texts with _ | ⟨next, texts⟩
  · exact ⟨closer, tail, by rw [List.intercalate_singleton], hcloser⟩
  · refine ⟨',', [','].intercalate (next :: texts) ++ closer :: tail, ?_, rfl⟩
    simp [List.intercalate_cons_cons]

/-! ### Elements -/

/-- The closing bracket ends a value. -/
theorem Bracket.endsValue_closer (bracket : Bracket) : Scan.endsValue bracket.closer := by
  cases bracket <;> rfl

/-- Nothing is skipped before a character that is no trivia. -/
theorem Cursor.skipTrivia_of_cons {c : Cursor} {x : Char} {tail : List Char}
    (h : c.rest = x :: tail) (hblank : Scan.isBlank x = false) (hslash : x ≠ '\\') :
    c.skipTrivia = c := by
  rw [Cursor.skipTrivia, h, Scan.trivia_cons_eq_zero hblank hslash, Cursor.advance_zero]

namespace StartsElement

variable {c : Cursor}

/-- Nothing is skipped before an element. -/
theorem skipTrivia (h : StartsElement c.rest) : c.skipTrivia = c := by
  obtain ⟨x, rest, hrest, hx⟩ := h
  obtain ⟨hblank, hslash, -⟩ := Scan.startsElement_iff.mp hx
  exact Cursor.skipTrivia_of_cons hrest hblank hslash

/-- The line does not end where an element starts. -/
theorem atLineEnd {text : List Char} (h : StartsElement text) : Scan.atLineEnd text = false := by
  obtain ⟨x, rest, rfl, hx⟩ := h
  obtain ⟨-, -, hline, -⟩ := Scan.startsElement_iff.mp hx
  simpa [Scan.atLineEnd] using hline

/-- An element does not start with the closing bracket. -/
theorem peek_ne_closer (h : StartsElement c.rest) (bracket : Bracket) :
    (c.peek == some bracket.closer) = false := by
  obtain ⟨x, rest, hrest, hx⟩ := h
  obtain ⟨-, -, -, hends⟩ := Scan.startsElement_iff.mp hx
  rw [Cursor.peek_of_cons hrest, beq_eq_false_iff_ne]
  rintro heq
  rw [Option.some.inj heq, bracket.endsValue_closer] at hends
  cases hends

end StartsElement

namespace Parser

variable {α : Type} {s : Settings} {c opener : Cursor} {bracket : Bracket} {tail : List Char}

/-- There is content where an element starts. -/
theorem expectContent_run (h : StartsElement c.rest) :
    expectContent bracket opener s c = .done () [] c := by
  rw [expectContent, bind_done here_run, h.atLineEnd, if_neg Bool.false_ne_true]
  rfl

/-- The closing bracket ends a container. -/
theorem separator_close (hrest : c.rest = bracket.closer :: tail) :
    separator bracket opener s c = .done true [] (c.advance 1) := by
  have hskip : c.skipTrivia = c := by
    cases bracket with
    | square => exact Cursor.skipTrivia_of_cons hrest (by decide) (by decide)
    | curly => exact Cursor.skipTrivia_of_cons hrest (by decide) (by decide)
  have hcomma : (bracket.closer == ',') = false := by cases bracket <;> rfl
  have hlen : 1 ≤ c.rest.length := by simp [hrest]
  have hpeek : c.peek = some bracket.closer := Cursor.peek_of_cons hrest
  rw [separator, bind_done skipTrivia_run, hskip, bind_done here_run, hpeek]
  dsimp only
  rw [hcomma, if_neg Bool.false_ne_true, beq_self_eq_true, if_pos rfl, bind_done (take_run hlen)]
  rfl

/-- A comma leads to the next element. -/
theorem separator_comma (hrest : c.rest = ',' :: tail) (htail : StartsElement tail) :
    separator bracket opener s c = .done false [] (c.advance 1) := by
  have hskip : c.skipTrivia = c := Cursor.skipTrivia_of_cons hrest (by decide) (by decide)
  have hlen : 1 ≤ c.rest.length := by simp [hrest]
  have hpeek : c.peek = some ',' := Cursor.peek_of_cons hrest
  have hnext : StartsElement (c.advance 1).rest :=
    Cursor.advance_one_of_cons hrest ▸ htail
  rw [separator, bind_done skipTrivia_run, hskip, bind_done here_run, hpeek]
  dsimp only
  rw [beq_self_eq_true, if_pos rfl, bind_done (take_run hlen), bind_done skipTrivia_run,
    hnext.skipTrivia, bind_done here_run, hnext.peek_ne_closer, if_neg Bool.false_ne_true,
    bind_done (expectContent_run hnext)]
  rfl

/-- Elements with commas between them and the closing bracket after them. -/
theorem elements_parses {element : Parser α} {unplaced : α → α} {written : α → List Char}
    {parts : List α} {fuel : Nat} (hne : parts ≠ [])
    (hparts : ∀ part ∈ parts, Parses element unplaced ValueEnds (written part) part)
    (hstart : ∀ part ∈ parts, StartsElement (written part))
    (hrest : c.rest = [','].intercalate (parts.map written) ++ bracket.closer :: tail)
    (hfuel : c.rest.length < fuel) :
    ∃ found, elements element bracket opener fuel s c =
        .done found [] (c.advance (([','].intercalate (parts.map written)).length + 1)) ∧
      found.map unplaced = parts.map unplaced := by
  induction fuel generalizing c parts with
  | zero => exact absurd hfuel (Nat.not_lt_zero _)
  | succ fuel ih =>
      rcases parts with _ | ⟨part, _ | ⟨next, parts⟩⟩
      · exact absurd rfl hne
      · -- the last element
        rw [List.map_cons, List.map_nil, List.intercalate_singleton] at hrest ⊢
        obtain ⟨found, hrun, hfound⟩ := hparts part List.mem_cons_self s c _ hrest
          ⟨_, _, rfl, bracket.endsValue_closer⟩
        have hnext := Cursor.advance_rest_of_append hrest
        rw [elements, bind_done hrun, bind_done (separator_close hnext), if_pos rfl,
          Cursor.advance_advance]
        exact ⟨[found], rfl, by simp [hfound]⟩
      · -- an element with a comma and more elements after it
        have htext : [','].intercalate ((part :: next :: parts).map written) =
            written part ++ ',' :: [','].intercalate ((next :: parts).map written) := by
          simp [List.intercalate_cons_cons]
        rw [List.forall_mem_cons] at hparts hstart
        have hstarts : StartsElement ([','].intercalate ((next :: parts).map written)) :=
          .intercalate (by simp) (List.forall_mem_map.mpr hstart.2)
        have hih := fun c => ih (c := c) (List.cons_ne_nil next parts) hparts.2 hstart.2
        generalize [','].intercalate ((next :: parts).map written) = others at *
        rw [htext] at hrest ⊢
        rw [List.append_assoc, List.cons_append] at hrest
        obtain ⟨found, hrun, hfound⟩ := hparts.1 s c _ hrest ⟨_, _, rfl, rfl⟩
        have hcomma := Cursor.advance_rest_of_append hrest
        have hnext : ((c.advance (written part).length).advance 1).rest =
            others ++ bracket.closer :: tail :=
          Cursor.advance_one_of_cons hcomma
        have hlength : c.rest.length = (written part).length +
            ((others ++ bracket.closer :: tail).length + 1) := by
          rw [hrest, List.length_append, List.length_cons]
        obtain ⟨rest, hothers, hsame⟩ := hih _ hnext (by rw [hnext]; omega)
        rw [elements, bind_done hrun, bind_done (separator_comma hcomma (hstarts.append _)),
          if_neg Bool.false_ne_true, bind_done hothers, Cursor.advance_advance,
          Cursor.advance_advance, List.length_append, List.length_cons]
        refine ⟨found :: rest, ?_, by rw [List.map_cons, hfound, hsame]; rfl⟩
        rw [pure_run, Nat.add_assoc, Nat.add_assoc, Nat.add_comm 1]

/-! ### Pairs -/

/-- The sign of an operator is read as the operator. -/
theorem operator_run (operator : PairOperator) (hrest : c.rest = operator.char :: tail) :
    Parser.operator s c = .done operator [] (c.advance 1) := by
  have hpeek : c.peek.bind PairOperator.ofChar? = some operator := by
    rw [Cursor.peek_of_cons hrest, Option.bind_some]
    cases operator <;> rfl
  rw [Parser.operator, bind_done here_run, hpeek]
  dsimp only
  rw [bind_done (take_run (by simp [hrest]))]
  rfl

/-- A pair is read as it is written if its value is. -/
theorem pair_parses {value : Parser NbtValue} {pair : NbtPair} (h : pair.Printable)
    (hvalue : Parses value NbtValue.unplaced ValueEnds pair.value.written pair.value) :
    Parses (Parser.pair value) NbtPair.unplaced ValueEnds pair.written pair := by
  intro s c tail hrest hends
  cases h with
  | @mk key operator inner span hkey hinner =>
      replace hvalue : Parses value NbtValue.unplaced ValueEnds inner.written inner := hvalue
      have hchar : Scan.isBlank operator.char = false ∧ operator.char ≠ '\\' := by
        cases operator <;> decide
      have hlength : (NbtPair.written ⟨key, operator, inner, span⟩).length =
          key.written.length + (1 + inner.written.length) := by
        simp [NbtPair.written]
        omega
      have hspan := Cursor.le_advance (Cursor.length_le_of_append hrest)
      replace hrest : c.rest = key.written ++ operator.char :: (inner.written ++ tail) := by
        simp [hrest, NbtPair.written]
      obtain ⟨foundKey, hkeyRun, hkeySame⟩ := key_parses hkey s c _ hrest ⟨operator, _, rfl⟩
      have hkeyEnd := Cursor.advance_rest_of_append hrest
      have hnext : ((c.advance key.written.length).advance 1).rest = inner.written ++ tail :=
        Cursor.advance_one_of_cons hkeyEnd
      obtain ⟨foundValue, hvalueRun, hvalueSame⟩ := hvalue s _ tail hnext hends
      have hstart : StartsElement ((c.advance key.written.length).advance 1).rest :=
        hnext ▸ hinner.startsElement.append tail
      rw [Parser.pair, bind_done here_run, bind_done hkeyRun, bind_done skipTrivia_run,
        Cursor.skipTrivia_of_cons hkeyEnd hchar.1 hchar.2,
        bind_done (operator_run operator hkeyEnd), bind_done skipTrivia_run, hstart.skipTrivia,
        bind_done hvalueRun, Cursor.advance_advance, Cursor.advance_advance, ← hlength,
        bind_done (spanFrom_run hspan)]
      refine ⟨_, rfl, ?_⟩
      rw [NbtPair.unplaced, hkeySame, hvalueSame, NbtPair.unplaced]

/-! ### Lists and compounds -/

/-- The text of a container past its opening bracket. -/
theorem enclosed {text content : List Char} {x closer : Char}
    (htext : text = x :: (content ++ [closer])) (hrest : c.rest = text ++ tail) :
    text.length = 1 + (content.length + 1) ∧ (c.advance 1).rest = content ++ closer :: tail := by
  subst htext
  constructor
  · rw [List.length_cons, List.length_append, Nat.add_comm 1]
    rfl
  · simp [hrest]

/-- The elements between two brackets. -/
theorem enclosed_parses {element : Parser α} {unplaced : α → α} {written : α → List Char}
    {parts : List α} (bracket : Bracket) (hne : parts ≠ [])
    (hparts : ∀ part ∈ parts, Parses element unplaced ValueEnds (written part) part)
    (hstart : ∀ part ∈ parts, StartsElement (written part))
    (hrest : (c.advance 1).rest =
      [','].intercalate (parts.map written) ++ bracket.closer :: tail) :
    StartsElement (c.advance 1).rest ∧
      ∃ found, elements element bracket c ((c.advance 1).rest.length + 1) s (c.advance 1) =
          .done found []
            (c.advance (1 + (([','].intercalate (parts.map written)).length + 1))) ∧
        found.map unplaced = parts.map unplaced := by
  have hstarts : StartsElement ([','].intercalate (parts.map written)) :=
    .intercalate (by simpa) (List.forall_mem_map.mpr hstart)
  refine ⟨hrest ▸ hstarts.append _, ?_⟩
  rw [← Cursor.advance_advance]
  exact elements_parses hne hparts hstart hrest (Nat.lt_succ_self _)

/-- A list that is not empty, once its elements have been read. -/
theorem listOf_run {value : Parser NbtValue} {n : Nat} (items : NbtItems)
    (hlen : n ≤ c.rest.length) (hpos : 0 < n) (hstart : StartsElement (c.advance 1).rest)
    (hitems : (if Scan.startsPair (c.advance 1).rest then
        NbtItems.pairs <$> elements (pair value) .square c ((c.advance 1).rest.length + 1)
      else NbtItems.values <$> elements value .square c ((c.advance 1).rest.length + 1))
        s (c.advance 1) = .done items [] (c.advance n)) :
    listOf value s c = .done ⟨items, c.spanTo (c.advance n)⟩ [] (c.advance n) := by
  have hclose : ((c.advance 1).peek == some ']') = false := hstart.peek_ne_closer .square
  have hspan := Cursor.le_advance hlen
  rw [listOf, bind_done here_run, bind_done (take_run (by omega)), bind_done skipTrivia_run,
    hstart.skipTrivia, bind_done here_run, hclose, if_neg Bool.false_ne_true,
    bind_done (expectContent_run hstart)]
  by_cases hpair : Scan.startsPair (c.advance 1).rest
  · rw [if_pos hpair] at hitems ⊢
    rw [bind_done hitems]
    dsimp only
    rw [bind_done (spanFrom_run hspan)]
    rfl
  · rw [if_neg hpair] at hitems ⊢
    rw [bind_done hitems]
    dsimp only
    rw [bind_done (spanFrom_run hspan)]
    rfl

/-- Brackets with nothing between them are an empty list. -/
theorem listOf_empty {value : Parser NbtValue} (hrest : c.rest = '[' :: ']' :: tail) :
    listOf value s c = .done ⟨.values [], c.spanTo (c.advance 2)⟩ [] (c.advance 2) := by
  have hnext : (c.advance 1).rest = ']' :: tail := by simp [hrest]
  have hlen : 1 ≤ (c.advance 1).rest.length := by rw [hnext]; simp
  have hpeek : ((c.advance 1).peek == some ']') = true := by
    rw [Cursor.peek_of_cons hnext, beq_self_eq_true]
  have hspan : c ≤ c.advance 2 := Cursor.le_advance (by simp [hrest])
  rw [listOf, bind_done here_run, bind_done (take_run (by simp [hrest])),
    bind_done skipTrivia_run, Cursor.skipTrivia_of_cons hnext (by decide) (by decide),
    bind_done here_run, if_pos hpeek, bind_done (take_run hlen),
    Cursor.advance_advance, bind_done (spanFrom_run hspan)]
  rfl

section

variable {value : Parser NbtValue} {room : Nat}
  (hvalue : ∀ inner : NbtValue, inner.Printable → inner.nest ≤ room →
    Parses value NbtValue.unplaced ValueEnds inner.written inner)

include hvalue

/-- Each of several pairs is read as it is written if the values are. -/
theorem allPairs_parse {pairs : List NbtPair} (h : ∀ part ∈ pairs, part.Printable)
    (hnest : NbtPair.allNest pairs ≤ room) : ∀ part ∈ pairs,
    Parses (pair value) NbtPair.unplaced ValueEnds part.written part := by
  intro part hmem
  rw [NbtPair.allNest_eq_deepest, deepest_le_iff] at hnest
  have hpart := h part hmem
  have hroom := hnest part hmem
  refine pair_parses hpart ?_
  cases hpart with
  | mk _ hinner => exact hvalue _ hinner hroom

/-- Each of several values is read as it is written. -/
theorem allValues_parse {values : List NbtValue} (h : ∀ part ∈ values, part.Printable)
    (hnest : NbtValue.allNest values ≤ room) : ∀ part ∈ values,
    Parses value NbtValue.unplaced ValueEnds part.written part := by
  intro part hmem
  rw [NbtValue.allNest_eq_deepest, deepest_le_iff] at hnest
  exact hvalue part (h part hmem) (hnest part hmem)

/-- A compound is read as it is written. -/
theorem compoundOf_parses {compound : NbtCompound} (h : compound.Printable)
    (hnest : compound.nest ≤ room + 1) :
    Parses (compoundOf value) NbtCompound.unplaced AnyEnds compound.written compound := by
  intro s c tail hrest _
  have hlen := Cursor.length_le_of_append hrest
  cases h with
  | @mk pairs span hne hpairs =>
      obtain ⟨hlength, hcontent⟩ := enclosed (NbtCompound.written_eq ⟨pairs, span⟩) hrest
      obtain ⟨hstart, found, hrun, hsame⟩ := enclosed_parses (s := s) .curly hne
        (allPairs_parse hvalue hpairs (Nat.le_of_succ_le_succ hnest))
        (fun part hmem => (hpairs part hmem).startsElement) hcontent
      have hclose : ((c.advance 1).peek == some '}') = false := hstart.peek_ne_closer .curly
      rw [← hlength] at hrun
      rw [compoundOf, bind_done here_run, bind_done (take_run (by omega)),
        bind_done skipTrivia_run, hstart.skipTrivia, bind_done here_run, hclose,
        if_neg Bool.false_ne_true, bind_done (expectContent_run hstart), bind_done hrun,
        bind_done (spanFrom_run (Cursor.le_advance hlen))]
      refine ⟨_, rfl, ?_⟩
      rw [NbtCompound.unplaced, NbtCompound.unplaced, NbtPair.allUnplaced_eq_map, hsame,
        NbtPair.allUnplaced_eq_map]

/-- The elements of a list are read as what they are: pairs or values. -/
theorem listOf_parses {list : NbtList} (h : list.Printable) (hnest : list.nest ≤ room + 1) :
    Parses (listOf value) NbtList.unplaced AnyEnds list.written list := by
  intro s c tail hrest _
  have hlen := Cursor.length_le_of_append hrest
  obtain ⟨hlength, hcontent⟩ := enclosed list.written_eq hrest
  cases h with
  | @pairs pairs span hne hpairs =>
      rw [NbtItems.written, NbtPair.allWritten_eq_map] at hlength hcontent
      obtain ⟨hstart, found, hrun, hsame⟩ := enclosed_parses (s := s) .square hne
        (allPairs_parse hvalue hpairs (Nat.le_of_succ_le_succ hnest))
        (fun part hmem => (hpairs part hmem).startsElement) hcontent
      have hpair : Scan.startsPair (c.advance 1).rest := by
        obtain ⟨first, others, rfl⟩ := List.exists_cons_of_ne_nil hne
        obtain ⟨x, rest, htext, -⟩ := exists_intercalate_eq first.written
          (others.map NbtPair.written) tail Bracket.square.endsValue_closer
        rw [hcontent, List.map_cons]
        exact htext ▸ startsPair_pair (hpairs first List.mem_cons_self) _
      rw [← hlength] at hrun
      refine ⟨_, listOf_run (.pairs found) hlen (by omega) hstart ?_, ?_⟩
      · rw [if_pos hpair, map_eq_bind, bind_done hrun]
        rfl
      · rw [NbtList.unplaced, NbtList.unplaced, NbtItems.unplaced, NbtItems.unplaced,
          NbtPair.allUnplaced_eq_map, hsame, NbtPair.allUnplaced_eq_map]
  | @values values span hfirst hvalues =>
      rw [NbtItems.written, NbtValue.allWritten_eq_map] at hlength hcontent
      rcases values with _ | ⟨first, others⟩
      · have hempty : c.rest = '[' :: ']' :: tail := hrest
        exact ⟨_, listOf_empty hempty, rfl⟩
      · obtain ⟨hstart, found, hrun, hsame⟩ := enclosed_parses (s := s) .square
          (List.cons_ne_nil first others)
          (allValues_parse hvalue hvalues (Nat.le_of_succ_le_succ hnest))
          (fun part hmem => (hvalues part hmem).startsElement) hcontent
        have hpair : Scan.startsPair (c.advance 1).rest = false := by
          obtain ⟨x, rest, htext, hx⟩ := exists_intercalate_eq first.written
            (others.map NbtValue.written) tail Bracket.square.endsValue_closer
          have hresource : ∀ location, first ≠ .resource location := fun location heq =>
            hfirst location (by rw [heq]; rfl)
          rw [hcontent, List.map_cons]
          exact htext ▸ startsPair_value (hvalues first List.mem_cons_self) hresource hx
        rw [← hlength] at hrun
        refine ⟨_, listOf_run (.values found) hlen (by omega) hstart ?_, ?_⟩
        · rw [hpair, if_neg Bool.false_ne_true, map_eq_bind, bind_done hrun]
          rfl
        · rw [NbtList.unplaced, NbtList.unplaced, NbtItems.unplaced, NbtItems.unplaced,
            NbtValue.allUnplaced_eq_map, hsame, NbtValue.allUnplaced_eq_map]

end

/-! ### Values -/

/-- A parser that succeeds needs no placeholder. -/
theorem orPlaceholder_run {p : Parser α} {placeholder : ErrorNode → α} {value : α}
    {log : List Event} {d : Cursor} (h : p s c = .done value log d) :
    orPlaceholder p placeholder s c = .done value log d := by
  rw [orPlaceholder, orElse, h]

section

variable {list : Parser NbtList} {compound : Parser NbtCompound}

/-- A value that is a quoted string is read as it is written. -/
theorem valueOf_quoted {literal : StringLiteral} (h : literal.Quoted) :
    Parses (valueOf list compound) NbtValue.unplaced AnyEnds literal.written (.string literal) := by
  intro s c tail hrest _
  have hplain : Scan.startsInterpolated false c.rest = false := hrest ▸ h.startsInterpolated _ _
  obtain ⟨found, hrun, hsame⟩ := quotedString_parses h s c tail hrest trivial
  obtain ⟨quote, -, hquote, -, hwritten⟩ := h.exists_eq
  have hpeek : c.peek = some quote := Cursor.peek_of_cons (hrest.trans (hwritten tail))
  refine ⟨.string found, ?_, by rw [NbtValue.unplaced, hsame, NbtValue.unplaced]⟩
  rw [valueOf, bind_done here_run, hplain, if_neg Bool.false_ne_true, hpeek]
  rcases hquote with rfl | rfl
  · exact bind_done hrun
  · exact bind_done hrun

/-- A value that is a scalar is read as it is written. -/
theorem valueOf_scalar {text : List Char} {value : NbtValue} (htext : Row Scan.isScalarChar text)
    (h : Parses scalar NbtValue.unplaced ValueEnds text value) :
    Parses (valueOf list compound) NbtValue.unplaced ValueEnds text value := by
  intro s c tail hrest hends
  obtain ⟨found, hrun, hsame⟩ := h s c tail hrest hends
  obtain ⟨x, tail, rfl, hx⟩ := hends
  have hplain : Scan.startsInterpolated false c.rest = false :=
    hrest ▸ Scan.startsInterpolated_scalar htext hx
  obtain ⟨y, rest, rfl⟩ := List.exists_cons_of_ne_nil htext.1
  have hy := htext.2 y List.mem_cons_self
  have hpeek : c.peek = some y := Cursor.peek_of_cons hrest
  have hne : ∀ z, Scan.isScalarChar z = false → c.peek ≠ some z := fun z hz heq =>
    Scan.ne_of_class hy hz (Option.some.inj (hpeek.symm.trans heq))
  refine ⟨found, ?_, hsame⟩
  rw [valueOf, bind_done here_run, hplain, if_neg Bool.false_ne_true]
  -- no scalar starts as a string or a container does, and none is missing
  refine (congrFun (congrFun (?_ : _ = scalar) s) c).trans hrun
  split
  · exact absurd ‹_› (hne _ (by decide))
  · exact absurd ‹_› (hne _ (by decide))
  · exact absurd ‹_› (hne _ (by decide))
  · exact absurd ‹_› (hne _ (by decide))
  · exact absurd (hpeek.symm.trans ‹_›) (Option.some_ne_none y)
  · exact absurd ‹_› (hne _ (by decide))
  · exact absurd ‹_› (hne _ (by decide))
  · exact absurd ‹_› (hne _ (by decide))
  · exact absurd ‹_› (hne _ (by decide))
  · rfl

/-- A value that is a list is read as it is written if the list is. -/
theorem valueOf_list {inner : NbtList}
    (h : Parses list NbtList.unplaced AnyEnds inner.written inner) :
    Parses (valueOf list compound) NbtValue.unplaced AnyEnds inner.written (.list inner) := by
  intro s c tail hrest hends
  obtain ⟨found, hrun, hsame⟩ := h s c tail hrest hends
  rw [inner.written_eq] at hrest
  have hplain : Scan.startsInterpolated false c.rest = false := by rw [hrest]; rfl
  have hpeek : c.peek = some '[' := Cursor.peek_of_cons hrest
  refine ⟨.list found, ?_, by rw [NbtValue.unplaced, hsame, NbtValue.unplaced]⟩
  rw [valueOf, bind_done here_run, hplain, if_neg Bool.false_ne_true, hpeek]
  exact orPlaceholder_run (bind_done hrun)

/-- A value that is a compound is read as it is written if the compound is. -/
theorem valueOf_compound {inner : NbtCompound}
    (h : Parses compound NbtCompound.unplaced AnyEnds inner.written inner) :
    Parses (valueOf list compound) NbtValue.unplaced AnyEnds inner.written (.compound inner) := by
  intro s c tail hrest hends
  obtain ⟨found, hrun, hsame⟩ := h s c tail hrest hends
  rw [inner.written_eq] at hrest
  have hplain : Scan.startsInterpolated false c.rest = false := by rw [hrest]; rfl
  have hpeek : c.peek = some '{' := Cursor.peek_of_cons hrest
  refine ⟨.compound found, ?_, by rw [NbtValue.unplaced, hsame, NbtValue.unplaced]⟩
  rw [valueOf, bind_done here_run, hplain, if_neg Bool.false_ne_true, hpeek]
  exact orPlaceholder_run (bind_done hrun)

/-- What reads whatever may follow reads before a comma or a closing bracket. -/
theorem Parses.weaken {p : Parser α} {unplaced : α → α} {text : List Char} {value : α}
    (h : Parses p unplaced AnyEnds text value) : Parses p unplaced ValueEnds text value :=
  fun s c tail hrest _ => h s c tail hrest trivial

/-- A value of any kind, if the containers that nest no deeper are read. -/
theorem valueOf_parses {room : Nat}
    (hlist : ∀ inner : NbtList, inner.Printable → inner.nest ≤ room →
      Parses list NbtList.unplaced AnyEnds inner.written inner)
    (hcompound : ∀ inner : NbtCompound, inner.Printable → inner.nest ≤ room →
      Parses compound NbtCompound.unplaced AnyEnds inner.written inner)
    (inner : NbtValue) (h : inner.Printable) (hnest : inner.nest ≤ room) :
    Parses (valueOf list compound) NbtValue.unplaced ValueEnds inner.written inner := by
  cases h with
  | string h => exact (valueOf_quoted h).weaken
  | number h => exact valueOf_scalar h.row.1 (number_parses h)
  | resource h => exact valueOf_scalar h.row (resource_parses h)
  | @boolean boolean =>
      exact valueOf_scalar (boolean.row.mono Scan.isScalarChar_of_isWordChar)
        (boolean_parses boolean)
  | list h => exact (valueOf_list (hlist _ h hnest)).weaken
  | compound h => exact (valueOf_compound (hcompound _ h hnest)).weaken

end

/-- A value that nests within the room is read as it is written. -/
theorem value_parses (room : Nat) : ∀ inner : NbtValue, inner.Printable → inner.nest ≤ room →
    Parses (value room) NbtValue.unplaced ValueEnds inner.written inner := by
  induction room with
  | zero =>
      rw [value_zero]
      exact valueOf_parses (fun inner _ h => absurd h (Nat.not_le_of_gt inner.nest_pos))
        fun inner _ h => absurd h (Nat.not_le_of_gt inner.nest_pos)
  | succ room ih =>
      rw [value_succ]
      exact valueOf_parses (fun _ => listOf_parses ih) fun _ => compoundOf_parses ih

/-- A list that nests within the room is read as it is written. -/
theorem list_parses {inner : NbtList} {room : Nat} (h : inner.Printable)
    (hnest : inner.nest ≤ room) :
    Parses (list room) NbtList.unplaced AnyEnds inner.written inner := by
  cases room with
  | zero => exact absurd hnest (Nat.not_le_of_gt inner.nest_pos)
  | succ room => exact listOf_parses (value_parses room) h hnest

/-- A compound that nests within the room is read as it is written. -/
theorem compound_parses {inner : NbtCompound} {room : Nat} (h : inner.Printable)
    (hnest : inner.nest ≤ room) :
    Parses (compound room) NbtCompound.unplaced AnyEnds inner.written inner := by
  cases room with
  | zero => exact absurd hnest (Nat.not_le_of_gt inner.nest_pos)
  | succ room => exact compoundOf_parses (value_parses room) h hnest

end Parser

end Mcfunction
