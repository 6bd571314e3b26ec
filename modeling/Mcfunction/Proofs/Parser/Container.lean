import Mcfunction.Proofs.Parser.Leaf

/-!
# What the Parsers of Containers Read

The parsers of one level are sound if the parser of the values inside is; `value_reads` follows
by recursion on the levels that are left. Each turn of a loop takes at least one character, so
no loop runs out of turns.

## Main results

* `value_reads`, `list_reads`, `compound_reads`: containers with any number of levels left.
* `pathFrom_reads`: the path whose first name has been read.
-/

namespace Mcfunction

namespace Scan

/-- A text without blanks at its end is a front of the text. -/
theorem isPrefix_trimEnd (chars : List Char) : trimEnd chars <+: chars := by
  rw [trimEnd, ← List.reverse_suffix, List.reverse_reverse]
  exact List.dropWhile_suffix _

end Scan

/-- No closing bracket is a line feed. -/
theorem Bracket.closer_ne_newline (bracket : Bracket) : bracket.closer ≠ '\n' := by
  cases bracket <;> decide

/-- A string, a number, a resource location or a truth value. -/
def NbtValue.isScalar : NbtValue → Bool
  | .string _ | .number _ | .resource _ | .boolean _ => true
  | .list _ | .compound _ | .interpolated _ | .error _ => false

namespace Parser

variable {α : Type} {limit : Nat} {s : Settings} {c d origin opener : Cursor} {bracket : Bracket}

/-- A quote that comes next starts a quoted string. -/
theorem startsQuoted_of_peek {x : Char} (h : c.peek = some x) (hx : x = '"' ∨ x = '\'') :
    Scan.startsQuoted c.rest := by
  obtain ⟨tail, hrest⟩ := List.head?_eq_some_iff.mp h
  rw [hrest]
  rcases hx with rfl | rfl <;> rfl

/-! ### Inside a container -/

/-- The first character at the place takes one byte. -/
def StartsWithByte (c : Cursor) : Prop :=
  ∃ x tail, c.rest = x :: tail ∧ x.utf8Size = 1

/-- A character of one byte that comes next. -/
theorem StartsWithByte.of_peek {x : Char} (h : c.peek = some x) (hx : x.utf8Size = 1) :
    StartsWithByte c := by
  obtain ⟨tail, hrest⟩ := List.head?_eq_some_iff.mp h
  exact ⟨x, tail, hrest, hx⟩

/-- Going forward by a character of one byte adds one to the offset. -/
theorem StartsWithByte.advance (h : StartsWithByte c) :
    c ≤ c.advance 1 ∧ c.offset + 1 = (c.advance 1).offset := by
  obtain ⟨x, tail, hrest, hx⟩ := h
  exact ⟨Cursor.le_advance (by simp [hrest]), (Cursor.advance_one_offset hrest hx).symm⟩

/-- The error about an unclosed container reaches from its opening bracket to the last text
before the cursor. -/
theorem unclosed_steady {post : α → Cursor → Prop} (horigin : Within origin opener)
    (hopen : StartsWithByte opener) : Steady origin c (unclosed bracket opener) post := by
  rw [unclosed, steady_bind_iff fun _ => here_run]
  generalize htrimmed :
    Scan.trimEnd (opener.rest.take (opener.rest.length - c.rest.length)) = trimmed
  have hprefix : trimmed <+: opener.rest := by
    rw [← htrimmed]
    exact (Scan.isPrefix_trimEnd _).trans (List.take_prefix _ _)
  have hlen := hprefix.length_le
  have hwidth : opener.offset + byteWidth trimmed = (opener.advance trimmed.length).offset := by
    rw [Cursor.advance_offset hlen, ← List.prefix_iff_eq_take.mp hprefix]
  obtain ⟨hone, honeOffset⟩ := hopen.advance
  rcases Nat.le_total (opener.advance trimmed.length).offset (opener.advance 1).offset with h | h
  · refine .failAt horigin hone rfl ?_
    rw [htrimmed, hwidth, honeOffset, max_eq_right h]
  · refine .failAt horigin (Cursor.le_advance hlen) rfl ?_
    rw [htrimmed, hwidth, honeOffset, max_eq_left h]

/-- The error for a bracket that is not closed gives no value. -/
theorem unclosed_never : Returns (unclosed bracket opener : Parser α) fun _ => False :=
  .andThen fun _ => .failAt

/-- A failure gives no value. -/
theorem failAt_never {cause : Cause} {i j : Nat} :
    Returns (failAt cause i j : Parser α) fun _ => False :=
  .failAt

/-- Looking for content moves nothing. -/
theorem expectContent_stop {log : List Event}
    (hrun : expectContent bracket opener s c = .done () log d) : d = c := by
  rw [expectContent, bind_done here_run] at hrun
  split at hrun
  · exact (unclosed_never _ _ _ _ _ hrun).elim
  · cases hrun
    rfl

/-- Behind an opening bracket either something comes or the bracket is not closed. -/
theorem expectContent_steady (horigin : Within origin opener) (hopen : StartsWithByte opener) :
    Steady origin c (expectContent bracket opener)
      (fun _ d => d = c ∧ Scan.atLineEnd c.rest = false) := by
  rw [expectContent, steady_bind_iff fun _ => here_run]
  by_cases hline : Scan.atLineEnd c.rest
  · rw [if_pos hline]
    exact unclosed_steady horigin hopen
  · rw [if_neg hline]
    exact .pure ⟨rfl, by simpa using hline⟩

/-- What stands after an element. -/
inductive SeparatorAt (closer : Char) : Cursor → Bool → Cursor → Prop
  /-- The closing bracket. -/
  | close {c : Cursor} : c.skipTrivia.peek = some closer →
      SeparatorAt closer c true (c.skipTrivia.advance 1)
  /-- A comma before the next element. -/
  | comma {c : Cursor} : c.skipTrivia.peek = some ',' →
      SeparatorAt closer c false (c.skipTrivia.advance 1).skipTrivia

/-- Behind an element a separator comes, the closing bracket or an error. -/
theorem separator_steady (horigin : Within origin opener) (hopen : StartsWithByte opener)
    (hwithin : Within opener c) :
    Steady origin c (separator bracket opener) (SeparatorAt bracket.closer c) := by
  have hwithin' := hwithin.trans (.skipTrivia c)
  rw [separator, steady_bind_iff fun _ => skipTrivia_run, steady_bind_iff fun _ => here_run]
  rcases hpeek : c.skipTrivia.peek with _ | x
  · exact unclosed_steady horigin hopen
  · obtain ⟨tail, hrest⟩ := List.head?_eq_some_iff.mp hpeek
    have hone : 1 ≤ c.skipTrivia.rest.length := by simp [hrest]
    have hnext : c.skipTrivia ≤ c.skipTrivia.advance 1 := Cursor.le_advance hone
    dsimp only
    by_cases hcomma : x = ','
    · subst hcomma
      rw [if_pos (beq_self_eq_true _), steady_bind_iff fun _ => take_run hone,
        steady_bind_iff fun _ => skipTrivia_run, steady_bind_iff fun _ => here_run]
      split
      · exact .failAt (horigin.trans hwithin') hnext rfl
          (Cursor.advance_one_offset hrest rfl).symm
      · refine (expectContent_steady horigin hopen).bind ?_
        rintro _ _ ⟨rfl, -⟩
        exact .pure (.comma hpeek)
    · rw [if_neg (by simpa using hcomma)]
      by_cases hclose : x = bracket.closer
      · subst hclose
        rw [if_pos (beq_self_eq_true _), steady_bind_iff fun _ => take_run hone]
        exact .pure (.close hpeek)
      · rw [if_neg (by simpa using hclose)]
        split
        · exact unclosed_steady horigin hopen
        · exact .failAt (horigin.trans hwithin') hnext rfl (Cursor.charEnd_eq (by simp [hrest]))

/-- What a separator that was read looks like. -/
theorem separator_stop {closed : Bool} {log : List Event}
    (hrun : separator bracket opener s c = .done closed log d) :
    SeparatorAt bracket.closer c closed d := by
  rw [separator, bind_done skipTrivia_run, bind_done here_run] at hrun
  rcases hpeek : c.skipTrivia.peek with _ | x
  · rw [hpeek] at hrun
    exact (unclosed_never _ _ _ _ _ hrun).elim
  · have hone : 1 ≤ c.skipTrivia.rest.length := Cursor.length_pos_of_peek hpeek
    rw [hpeek] at hrun
    dsimp only at hrun
    split at hrun
    · rename_i hcomma
      obtain rfl := beq_iff_eq.mp hcomma
      rw [bind_done (take_run hone), bind_done skipTrivia_run, bind_done here_run] at hrun
      split at hrun
      · exact (failAt_never _ _ _ _ _ hrun).elim
      · have hstop : SeparatorAt bracket.closer c false (c.skipTrivia.advance 1).skipTrivia :=
          .comma hpeek
        generalize (c.skipTrivia.advance 1).skipTrivia = e at hrun hstop
        rw [bind_run] at hrun
        obtain ⟨⟨⟩, _, e', _, hcontent, hlast, -⟩ := Outcome.andThen_eq_done hrun
        obtain rfl := expectContent_stop hcontent
        cases hlast
        exact hstop
    · split at hrun
      · rename_i hclose
        obtain rfl := beq_iff_eq.mp hclose
        rw [bind_done (take_run hone)] at hrun
        cases hrun
        exact .close hpeek
      · split at hrun
        · exact (unclosed_never _ _ _ _ _ hrun).elim
        · exact (failAt_never _ _ _ _ _ hrun).elim

/-- What follows the separator is reached without leaving the statement. -/
theorem SeparatorAt.within {closed : Bool} {closer : Char} (hcloser : closer ≠ '\n')
    (h : SeparatorAt closer c closed d) : Within c d := by
  cases h with
  | close hpeek => exact (Within.skipTrivia c).trans (Within.peek hpeek hcloser).2
  | comma hpeek =>
      exact ((Within.skipTrivia c).trans (Within.peek hpeek (by decide)).2).trans (.skipTrivia _)

/-- The elements of a container; each turn of the loop takes a character. -/
theorem elements_reads {element : Parser α} {piece : Cursor → α → Cursor → Prop} {fuel : Nat}
    (hpiece : Forward piece) (helement : ∀ c, Reads limit c c element (piece c))
    (horigin : Within origin opener) (hopen : StartsWithByte opener) (hwithin : Within opener c)
    (hfuel : c.rest.length < fuel) :
    Reads limit origin c (elements element bracket opener fuel)
      (ElementsAt piece bracket.closer c) := by
  induction fuel generalizing c with
  | zero => exact absurd hfuel (Nat.not_lt_zero _)
  | succ fuel ih =>
      rw [elements]
      refine ((helement c).weaken (horigin.trans hwithin).le).bind fun first d hfirst => ?_
      obtain ⟨hlt, hd⟩ := hpiece _ _ _ hfirst
      refine (separator_steady horigin hopen (hwithin.trans hd)).reads.bind fun closed e hsep => ?_
      have he := hsep.within bracket.closer_ne_newline
      cases hsep with
      | close hpeek => exact .pure (.last hfirst hpeek)
      | comma hpeek =>
          have hlength := Cursor.length_lt_of_lt (hlt.trans_le he.le)
          exact (ih ((hwithin.trans hd).trans he) (by omega)).bind fun _ _ h =>
            .pure (.next hfirst hpeek h)

/-! ### Keys and pairs -/

/-- A key is read where it stands. -/
theorem key_steady (c : Cursor) : Steady c c key (KeyAt c) := by
  rw [key, steady_bind_iff fun _ => here_run]
  by_cases hinterpolated : Scan.startsInterpolated true c.rest
  · rw [if_pos hinterpolated]
    exact (interpolated_steady (.refl c) hinterpolated).bind fun _ _ h =>
      .pure (.interpolated hinterpolated h)
  · rw [if_neg hinterpolated]
    rw [Bool.not_eq_true] at hinterpolated
    by_cases hquoted : Scan.startsQuoted c.rest
    · rw [if_pos hquoted]
      refine (quotedString_steady (.refl c) hquoted).bind ?_
      rintro _ _ ⟨q, hq, rfl, rfl⟩
      exact .pure (.quoted hinterpolated hquoted hq)
    · rw [if_neg hquoted]
      rw [Bool.not_eq_true] at hquoted
      rcases hword : Scan.word c.rest with _ | n
      · exact unexpected_steady (.refl c)
      · refine (steady_bind_iff fun _ => bareString_run (Scan.inline_word hword).le_length).mpr ?_
        exact .pure (.bare hinterpolated hquoted hword)

/-- An operator is read where it stands. -/
theorem operator_steady (c : Cursor) :
    Steady c c operator
      (fun operator d => c.peek.bind PairOperator.ofChar? = some operator ∧ d = c.advance 1) := by
  rw [operator, steady_bind_iff fun _ => here_run]
  rcases hoperator : c.peek.bind PairOperator.ofChar? with _ | op
  · obtain ⟨d, hcd, hend⟩ := c.exists_charEnd
    dsimp only
    by_cases hline : Scan.atLineEnd c.rest
    · rw [if_pos hline]
      exact .failAt (.refl c) le_rfl rfl rfl
    · rw [if_neg hline]
      exact .failAt (.refl c) hcd rfl hend
  · obtain ⟨x, hpeek, -⟩ := Option.bind_eq_some_iff.mp hoperator
    dsimp only
    rw [steady_bind_iff fun _ => take_run (Cursor.length_pos_of_peek hpeek)]
    exact .pure ⟨rfl, rfl⟩

section Values

variable {value : Parser NbtValue} {piece : Cursor → NbtValue → Cursor → Prop}
  (hpiece : Forward piece) (hvalue : ∀ c, Reads limit c c value (piece c))

include hpiece hvalue

/-- A pair is read in lockstep if its value is. -/
theorem pair_reads (c : Cursor) : Reads limit c c (pair value) (PairAt piece c) := by
  rw [pair, reads_here_bind]
  refine (key_steady c).reads.bind fun key d hkey => ?_
  have hd := hkey.placed.le.trans d.le_skipTrivia
  rw [reads_skipTrivia_bind]
  refine ((operator_steady _).reads.weaken hd).bind ?_
  rintro operator _ ⟨hoperator, rfl⟩
  obtain ⟨x, hpeek, hx⟩ := Option.bind_eq_some_iff.mp hoperator
  have hnext := (Within.peek hpeek (by rintro rfl; cases hx)).1.le
  have he := (hd.trans hnext).trans (Cursor.le_skipTrivia _)
  rw [reads_skipTrivia_bind]
  refine ((hvalue _).weaken he).bind fun inner e hinner => ?_
  rw [reads_spanFrom_bind (he.trans (hpiece _ _ _ hinner).1.le)]
  exact .pure (.mk hkey hoperator hinner)

/-- A list is read in lockstep if its values are. -/
theorem listOf_reads (hpeek : c.peek = some '[') :
    Reads limit c c (listOf value) (ListOfAt piece c) := by
  have hopen := StartsWithByte.of_peek hpeek rfl
  have hcontent := (Within.peek hpeek (by decide)).2.trans (.skipTrivia (c.advance 1))
  have hpair : Forward (PairAt piece) := fun _ _ _ h => (h.placed hpiece).forward
  rw [listOf, reads_here_bind, reads_take_bind (Cursor.length_pos_of_peek hpeek),
    reads_skipTrivia_bind, reads_here_bind]
  by_cases hclose : (c.advance 1).skipTrivia.peek = some ']'
  · have hnext := (Within.peek hclose (by decide)).1.le
    rw [if_pos (by simpa using hclose), reads_take_bind (Cursor.length_pos_of_peek hclose),
      reads_spanFrom_bind (hcontent.le.trans hnext)]
    exact .pure (.empty hpeek hclose)
  · rw [if_neg (by simpa using hclose)]
    refine (expectContent_steady (.refl c) hopen).reads.bind ?_
    rintro _ _ ⟨rfl, -⟩
    by_cases hstart : Scan.startsPair (c.advance 1).skipTrivia.rest
    · rw [if_pos hstart, map_bind]
      refine (elements_reads hpair (pair_reads hpiece hvalue) (.refl c) hopen hcontent
        (Nat.lt_succ_self _)).bind fun pairs d h => ?_
      have hd := (ElementsAt.forward (by decide) hpair _ _ _ h).1.le
      rw [reads_spanFrom_bind (hcontent.le.trans hd)]
      exact .pure (.pairs hpeek hstart h)
    · rw [if_neg hstart, map_bind]
      rw [Bool.not_eq_true] at hstart
      refine (elements_reads hpiece hvalue (.refl c) hopen hcontent
        (Nat.lt_succ_self _)).bind fun values d h => ?_
      have hd := (ElementsAt.forward (by decide) hpiece _ _ _ h).1.le
      rw [reads_spanFrom_bind (hcontent.le.trans hd)]
      exact .pure (.values hpeek hstart h)

/-- A compound is read in lockstep if its values are. -/
theorem compoundOf_reads (hpeek : c.peek = some '{') :
    Reads limit c c (compoundOf value) (CompoundOfAt piece c) := by
  have hopen := StartsWithByte.of_peek hpeek rfl
  obtain ⟨tail, hrest⟩ := List.head?_eq_some_iff.mp hpeek
  have hcontent := (Within.peek hpeek (by decide)).2.trans (.skipTrivia (c.advance 1))
  have hpair : Forward (PairAt piece) := fun _ _ _ h => (h.placed hpiece).forward
  rw [compoundOf, reads_here_bind, reads_take_bind (by simp [hrest]), reads_skipTrivia_bind,
    reads_here_bind]
  by_cases hclose : (c.advance 1).skipTrivia.peek = some '}'
  · have hnext := (Within.peek hclose (by decide)).1.le
    obtain ⟨tail, hrest'⟩ := List.head?_eq_some_iff.mp hclose
    rw [if_pos (by simpa using hclose)]
    exact .failAt le_rfl (hcontent.le.trans hnext) rfl (Cursor.advance_one_offset hrest' rfl).symm
  · rw [if_neg (by simpa using hclose)]
    refine (expectContent_steady (.refl c) hopen).reads.bind ?_
    rintro _ _ ⟨rfl, -⟩
    refine (elements_reads hpair (pair_reads hpiece hvalue) (.refl c) hopen hcontent
      (Nat.lt_succ_self _)).bind fun pairs d h => ?_
    have hd := (ElementsAt.forward (by decide) hpair _ _ _ h).1.le
    rw [reads_spanFrom_bind (hcontent.le.trans hd)]
    exact .pure (.mk hpeek h)

end Values

/-! ### Values -/

/-- A namespace and the path after it. -/
theorem location_eq_some {chars : List Char} {space path : Nat}
    (h : ((Scan.resourceNamespace chars).bind fun space =>
      (Scan.path (chars.drop (space + 1))).map fun path => (space, path)) = some (space, path)) :
    Scan.resourceNamespace chars = some space ∧
      Scan.path (chars.drop (space + 1)) = some path := by
  obtain ⟨space', hspace, h⟩ := Option.bind_eq_some_iff.mp h
  obtain ⟨path', hpath, h⟩ := Option.map_eq_some_iff.mp h
  obtain ⟨rfl, rfl⟩ := Prod.mk.inj h
  exact ⟨hspace, hpath⟩

/-- A word is one of the two truth values or stands for itself. -/
theorem scalar_steady {list : Cursor → NbtList → Cursor → Prop}
    {compound : Cursor → NbtCompound → Cursor → Prop} (c : Cursor) :
    Steady c c scalar (ValueOfAt list compound c) := by
  rw [scalar, steady_bind_iff fun _ => here_run]
  dsimp only
  split
  · rename_i space path _ hspacePath
    obtain ⟨hspace, hpath⟩ := location_eq_some hspacePath
    refine (steady_bind_iff fun _ => resourceLocation_run hspace hpath).mpr ?_
    exact .pure (.resource hspace hpath)
  · rename_i n suffix _ _ hnumber
    refine (steady_bind_iff fun _ => number_run hnumber).mpr ?_
    exact .pure (.number hnumber)
  · rename_i n _ _ hword
    refine (steady_bind_iff fun _ => bareString_run (Scan.inline_word hword).le_length).mpr ?_
    split
    · rename_i heq
      refine .pure (.boolean hword ?_)
      exact heq
    · rename_i heq
      refine .pure (.boolean hword ?_)
      exact heq
    · rename_i htrue hfalse
      exact .pure (.word hword htrue hfalse)
  · exact unexpected_steady (.refl c)

/-- A value without nested values is a scalar. -/
theorem scalar_returns : Returns scalar fun value => value.isScalar := by
  refine .andThen fun start => ?_
  dsimp only
  split
  · exact .andThen fun _ => .pure rfl
  · exact .andThen fun _ => .pure rfl
  · refine .andThen fun word => ?_
    split
    · exact .pure rfl
    · exact .pure rfl
    · exact .pure rfl
  · exact unexpected_returns

/-- A container in value position recovers on its own. -/
theorem valueOf_reads {list : Parser NbtList} {compound : Parser NbtCompound}
    {listAt : Cursor → NbtList → Cursor → Prop} {compoundAt : Cursor → NbtCompound → Cursor → Prop}
    (hlist : ∀ c, c.peek = some '[' → Reads limit c c list (listAt c))
    (hcompound : ∀ c, c.peek = some '{' → Reads limit c c compound (compoundAt c)) (c : Cursor) :
    Reads limit c c (valueOf list compound) (ValueOfAt listAt compoundAt c) := by
  rw [valueOf, reads_here_bind]
  by_cases hinterpolated : Scan.startsInterpolated false c.rest
  · rw [if_pos hinterpolated]
    exact (interpolated_steady (.refl c) hinterpolated).reads.bind fun _ _ h =>
      .pure (.interpolated hinterpolated h)
  · rw [if_neg hinterpolated]
    rw [Bool.not_eq_true] at hinterpolated
    have hquoted : Scan.startsQuoted c.rest → Reads limit c c
        (quotedString >>= fun literal => Pure.pure (NbtValue.string literal))
        (ValueOfAt listAt compoundAt c) := by
      intro hquoted
      refine (quotedString_steady (.refl c) hquoted).reads.bind ?_
      rintro _ _ ⟨q, hq, rfl, rfl⟩
      exact .pure (.quoted hinterpolated hquoted hq)
    split
    · rename_i hpeek
      exact hquoted (startsQuoted_of_peek hpeek (.inl rfl))
    · rename_i hpeek
      exact hquoted (startsQuoted_of_peek hpeek (.inr rfl))
    · rename_i hpeek
      refine orPlaceholder_reads (Cursor.atLineEnd_of_peek hpeek (by decide)) ?_
        fun _ _ => .error (.inl hpeek)
      exact .map ((hlist c hpeek).mono le_rfl fun _ _ => .list)
    · rename_i hpeek
      refine orPlaceholder_reads (Cursor.atLineEnd_of_peek hpeek (by decide)) ?_
        fun _ _ => .error (.inr hpeek)
      exact .map ((hcompound c hpeek).mono le_rfl fun _ _ => .compound)
    iterate 5 exact .fail ⟨c, c, le_rfl, le_rfl, rfl⟩
    · exact (scalar_steady c).reads

/-- A container that nests too deep is refused at its bracket. -/
theorem containerTooDeep_run {mode : Mode} :
    (containerTooDeep : Parser α) ⟨limit, mode⟩ c =
      .failed ⟨.nestingTooDeep limit, ⟨c.offset, c.charEnd⟩⟩ [] := by
  rw [containerTooDeep, bind_done here_run]
  exact tooDeep_run c

/-- A refusal is the same in both modes. -/
theorem containerTooDeep_reads {post : α → Cursor → Prop} (c : Cursor) :
    Reads limit c c containerTooDeep post := by
  rw [containerTooDeep, reads_here_bind]
  exact tooDeep_reads le_rfl

/-- On the last level there is no room for a container. -/
theorem value_zero : value 0 = valueOf containerTooDeep containerTooDeep := by
  funext s c
  rw [value]

/-- Every other level has containers with values of the level below. -/
theorem value_succ (room : Nat) :
    value (room + 1) = valueOf (listOf (value room)) (compoundOf (value room)) := by
  funext s c
  rw [value]

/-- Values have the lists and compounds of their level in them. -/
theorem value_eq (room : Nat) : value room = valueOf (list room) (compound room) := by
  cases room with
  | zero => exact value_zero
  | succ room => exact value_succ room

/-- A value is read in lockstep, by induction on the levels that are left. -/
theorem value_reads (room : Nat) (c : Cursor) :
    Reads limit c c (value room) (ValueAt room c) := by
  induction room generalizing c with
  | zero =>
      rw [value_zero]
      exact valueOf_reads (fun c _ => containerTooDeep_reads c)
        (fun c _ => containerTooDeep_reads c) c
  | succ room ih =>
      rw [value_succ]
      exact valueOf_reads (fun c hpeek => listOf_reads (ValueAt.forward room) ih hpeek)
        (fun c hpeek => compoundOf_reads (ValueAt.forward room) ih hpeek) c

/-- A list is read in lockstep. -/
theorem list_reads (room : Nat) (hpeek : c.peek = some '[') :
    Reads limit c c (list room) (ListAt room c) := by
  cases room with
  | zero => exact containerTooDeep_reads c
  | succ room => exact listOf_reads (ValueAt.forward room) (value_reads room) hpeek

/-- A compound is read in lockstep. -/
theorem compound_reads (room : Nat) (hpeek : c.peek = some '{') :
    Reads limit c c (compound room) (CompoundAt room c) := by
  cases room with
  | zero => exact containerTooDeep_reads c
  | succ room => exact compoundOf_reads (ValueAt.forward room) (value_reads room) hpeek

/-! ### Paths -/

/-- The brackets of a path are read in lockstep. -/
theorem suffixes_reads {room fuel : Nat} (horigin : origin ≤ c) (hfuel : c.rest.length < fuel) :
    Reads limit origin c (suffixes (containers room) fuel) (SuffixesAt room c) := by
  induction fuel generalizing c with
  | zero => exact absurd hfuel (Nat.not_lt_zero _)
  | succ fuel ih =>
      have hnext : ∀ {span d}, Placed c span d →
          Reads limit origin d (suffixes (containers room) fuel) (SuffixesAt room d) := by
        intro span d h
        have := Cursor.length_lt_of_lt h.lt
        exact ih (horigin.trans h.le) (by omega)
      rw [suffixes, reads_here_bind]
      split
      · rename_i hpeek
        refine ((list_reads room hpeek).weaken horigin).bind fun index d hindex => ?_
        exact (hnext hindex.placed).bind fun _ _ h => .pure (.index hindex h)
      · rename_i hpeek
        refine ((compound_reads room hpeek).weaken horigin).bind fun filter d hfilter => ?_
        exact (hnext hfilter.placed).bind fun _ _ h => .pure (.filter hfilter h)
      · rename_i hlist hcompound
        exact .pure (.nil hlist hcompound)

/-- The name of a segment is read where it stands. -/
theorem segmentName_steady (c : Cursor) : Steady c c segmentName (KeyAt c) := by
  rw [segmentName, steady_bind_iff fun _ => here_run]
  split
  · exact key_steady c
  · exact unexpected_steady (.refl c)

/-- The segments of a path from the one whose name stands between `start` and the cursor. -/
theorem segments_reads {room fuel : Nat} {start : Cursor} {name : NbtKey}
    (horigin : origin ≤ start) (hname : Placed start name.span c) (hfuel : c.rest.length < fuel) :
    Reads limit origin c (segments (containers room) fuel name) (SegmentsAt room start name c) := by
  induction fuel generalizing start name c with
  | zero => exact absurd hfuel (Nat.not_lt_zero _)
  | succ fuel ih =>
      have hstart : name.span.start = start.offset := by
        rw [hname.span_eq]
        rfl
      rw [segments, reads_here_bind]
      refine (suffixes_reads (horigin.trans hname.le) (Nat.lt_succ_self _)).bind
        fun suffixes d hsuffixes => ?_
      have hd := hname.le.trans hsuffixes.within.le
      rw [hstart, reads_spanFrom_bind hd, reads_here_bind]
      by_cases hpoint : d.peek = some '.'
      · have hnext := (Within.peek hpoint (by decide)).1
        rw [if_pos (by simpa using hpoint), reads_take_bind (Cursor.length_pos_of_peek hpoint)]
        refine ((segmentName_steady _).reads.weaken ((horigin.trans hd).trans hnext.le)).bind
          fun next e hkey => ?_
        have hlength := Cursor.length_lt_of_lt ((hsuffixes.within.le.trans hnext.le).trans_lt
          hkey.placed.lt)
        exact (ih ((horigin.trans hd).trans hnext.le) hkey.placed (by omega)).bind
          fun _ _ h => .pure (.next hsuffixes hpoint hkey h)
      · rw [if_neg (by simpa using hpoint)]
        exact .pure (.last hsuffixes hpoint)

/-- A path is read in lockstep from its first name. -/
theorem pathFrom_reads {room : Nat} {start : Cursor} {name : NbtKey}
    (hname : KeyAt start name c) (hsuffix : startsPathSuffix c.rest) :
    Reads limit start c (pathFrom (containers room) name) (PathAt room start) := by
  have hstart : name.span.start = start.offset := by
    rw [hname.placed.span_eq]
    rfl
  rw [pathFrom, reads_here_bind]
  refine (segments_reads le_rfl hname.placed (Nat.lt_succ_self _)).bind fun segments d h => ?_
  rw [hstart, reads_spanFrom_bind (hname.placed.le.trans h.within.le)]
  exact .pure (.mk hname hsuffix h)

end Parser

end Mcfunction
