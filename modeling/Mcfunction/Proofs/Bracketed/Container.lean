import Mcfunction.Proofs.Bracketed.Text
import Mcfunction.Proofs.Parser.Container

/-!
# Parsing Well-Bracketed Text

A container that stands in well-bracketed text is parsed in it: whatever is wrong inside, at any
depth, the parser of the container ends right behind the bracket that closes it, or fails with an
error that does not reach over that bracket. So the container and recovery agree on its extent.

`Inner bracket stop c` says that the cursor stands between two parts of such a container, and that
`stop` is the place behind its closing bracket. It is the invariant of the loop over elements.

## Main results

* `Inner.taken`, `Inner.skipTrivia`, `Inner.string`, `Inner.container`: steps from one part to the
  next.
* `recover_run_of_opens`: recovery from a container ends right behind it.
* `list_confined`, `compound_confined`: containers with any number of levels left.
-/

namespace Mcfunction

variable {α β : Type} {bracket : Bracket} {stop c d : Cursor} {n : Nat}

/-! ### Places in a container -/

/-- The cursor stands between two parts of a well-bracketed container without `$(`, of which what
is left ends with its closing bracket, right before `stop`. -/
def Inner (bracket : Bracket) (stop c : Cursor) : Prop :=
  ∃ inside, Scan.Inside inside ∧ ¬ ['$', '('] <:+: inside ∧
    c.rest = inside ++ bracket.closer :: stop.rest ∧ stop = c.advance (inside.length + 1)

/-- A well-bracketed container without `$(` starts at the cursor and ends right before `stop`. -/
structure Opens (bracket : Bracket) (stop c : Cursor) : Prop where
  /-- The opening bracket stands at the cursor. -/
  peek : c.peek = some bracket.opener
  /-- Behind it stands the inside of the container. -/
  inner : Inner bracket stop (c.advance 1)

namespace Inner

/-- Inside a container the place behind some parts is inside it too. -/
theorem of_drop {inside : List Char} (hle : n ≤ inside.length) (h : Scan.Inside (inside.drop n))
    (hnone : ¬ ['$', '('] <:+: inside) (hrest : c.rest = inside ++ bracket.closer :: stop.rest)
    (hstop : stop = c.advance (inside.length + 1)) : Inner bracket stop (c.advance n) := by
  refine ⟨inside.drop n, h, fun hpart => ?_, ?_, ?_⟩
  · exact hnone (hpart.trans (List.drop_suffix _ _).isInfix)
  · rw [Cursor.advance_rest, hrest, List.drop_append_of_le_length hle]
  · rw [Cursor.advance_advance, List.length_drop, hstop]
    congr 1
    omega

/-- Plain characters are parts. -/
theorem taken (h : Inner bracket stop c) (hn : Scan.Taken Scan.isPlain c.rest n) :
    Inner bracket stop (c.advance n) := by
  obtain ⟨inside, hinside, hnone, hrest, hstop⟩ := h
  rw [hrest] at hn
  obtain ⟨hle, hdrop⟩ := hinside.drop_taken hn
  exact of_drop hle hdrop hnone hrest hstop

/-- Spacing does not leave the container. -/
theorem skipTrivia (h : Inner bracket stop c) : Inner bracket stop c.skipTrivia := by
  obtain ⟨inside, hinside, hnone, hrest, hstop⟩ := h
  obtain ⟨hle, hdrop⟩ := hinside.drop_trivia bracket stop.rest
  rw [← hrest] at hle hdrop
  exact of_drop hle hdrop hnone hrest hstop

/-- A string is a part, and it has no interpolation. -/
theorem string (h : Inner bracket stop c) (hstart : Scan.startsQuoted c.rest) :
    ∃ q, Scan.quoted c.rest = .ok q ∧ q.interpolated = false ∧
      Inner bracket stop (c.advance q.count) := by
  obtain ⟨inside, hinside, hnone, hrest, hstop⟩ := h
  rw [hrest] at hstart
  obtain ⟨text, rest, q, rfl, hok, hcount, hrest', happend⟩ := hinside.exists_string hstart
  have hnone' : ¬ ['$', '('] <:+: text :=
    fun hpart => hnone (hpart.trans (List.prefix_append _ _).isInfix)
  refine ⟨q, hrest ▸ happend, Scan.quoted_interpolated hnone' hok, ?_⟩
  refine of_drop ?_ ?_ hnone hrest hstop
  · rw [hcount, List.length_append]
    exact Nat.le_add_right _ _
  · rwa [hcount, List.drop_left]

/-- There is a character at the cursor, and it does not end the line. -/
theorem exists_peek (h : Inner bracket stop c) : ∃ x, c.peek = some x ∧ x ≠ '\n' := by
  obtain ⟨inside, hinside, -, hrest, -⟩ := h
  rcases inside with _ | ⟨x, inside⟩
  · exact ⟨bracket.closer, Cursor.peek_of_cons hrest, bracket.closer_ne_newline⟩
  · exact ⟨x, Cursor.peek_of_cons hrest, hinside.head.2.2⟩

/-- No line ends at a place inside a container. -/
theorem atLineEnd (h : Inner bracket stop c) : Scan.atLineEnd c.rest = false := by
  obtain ⟨x, hpeek, hx⟩ := h.exists_peek
  exact Cursor.atLineEnd_of_peek hpeek hx

/-- At a place inside a container some text is left. -/
theorem ne_nil (h : Inner bracket stop c) : c.rest ≠ [] := by
  obtain ⟨x, hpeek, -⟩ := h.exists_peek
  exact Cursor.ne_nil_of_peek hpeek

/-- The next character belongs to the container. -/
theorem advance_one_le (h : Inner bracket stop c) : c.advance 1 ≤ stop := by
  obtain ⟨inside, -, -, hrest, rfl⟩ := h
  refine Cursor.advance_le_advance (Nat.succ_pos _) ?_
  rw [hrest, List.length_append, List.length_cons]
  omega

/-- The next character ends within the container. -/
theorem charEnd_le (h : Inner bracket stop c) : c.charEnd ≤ stop.offset := by
  rw [Cursor.charEnd_eq h.ne_nil]
  exact Cursor.offset_le_of_le h.advance_one_le

/-- The end of the container is further on. -/
theorem le (h : Inner bracket stop c) : c ≤ stop :=
  (Cursor.le_advance (List.length_pos_iff.mpr h.ne_nil)).trans h.advance_one_le

/-- A closing bracket between two parts closes the container. -/
theorem close {x : Char} (h : Inner bracket stop c) (hpeek : c.peek = some x)
    (hx : x = ']' ∨ x = '}') : x = bracket.closer ∧ stop = c.advance 1 := by
  obtain ⟨inside, hinside, -, hrest, hstop⟩ := h
  rcases inside with _ | ⟨y, inside⟩
  · rw [Cursor.peek_of_cons hrest] at hpeek
    exact ⟨(Option.some.inj hpeek).symm, hstop⟩
  · rw [Cursor.peek_of_cons hrest] at hpeek
    obtain rfl := Option.some.inj hpeek
    obtain ⟨hsquare, hcurly, -⟩ := hinside.head
    rcases hx with rfl | rfl
    · exact absurd rfl hsquare
    · exact absurd rfl hcurly

/-- An opening bracket starts a container inside, behind which the next part stands. -/
theorem container {bracket' : Bracket} (h : Inner bracket stop c)
    (hpeek : c.peek = some bracket'.opener) :
    ∃ stop', Opens bracket' stop' c ∧ Inner bracket stop stop' := by
  obtain ⟨inside, hinside, hnone, hrest, hstop⟩ := h
  rcases inside with _ | ⟨y, inside⟩
  · rw [Cursor.peek_of_cons hrest] at hpeek
    cases bracket <;> cases bracket' <;> cases hpeek
  · have hy := hpeek
    rw [Cursor.peek_of_cons hrest] at hy
    obtain rfl := Option.some.inj hy
    obtain ⟨inner, rest, rfl, hinner, hrest'⟩ := hinside.exists_container
    refine ⟨c.advance (inner.length + 2), ⟨hpeek, inner, hinner, ?_, ?_, ?_⟩, ?_⟩
    · have hpart : inner <:+: bracket'.opener :: (inner ++ bracket'.closer :: rest) :=
        ⟨[bracket'.opener], bracket'.closer :: rest, by simp⟩
      exact fun h => hnone (h.trans hpart)
    · rw [Cursor.advance_rest, Cursor.advance_rest, hrest]
      simp
    · rw [Cursor.advance_advance]
      congr 1
      omega
    · refine of_drop ?_ ?_ hnone hrest hstop
      · simp
      · simpa using hrest'

/-- No interpolated text starts here. -/
theorem startsInterpolated (h : Inner bracket stop c) (inKey : Bool) :
    Scan.startsInterpolated inKey c.rest = false := by
  rw [Scan.startsInterpolated]
  by_cases hquoted : Scan.startsQuoted c.rest
  · obtain ⟨q, hok, hplain, -⟩ := h.string hquoted
    rw [if_pos hquoted, hok]
    exact hplain
  · rw [if_neg hquoted, ← Cursor.advance_rest]
    -- what may stand before an interpolation is plain
    have hlead : Scan.Taken Scan.isPlain c.rest (Scan.run (Scan.isLeadChar inKey) c.rest) :=
      (Scan.taken_run _ _).mono fun x hx => Scan.isPlain_of_isLeadChar hx
    obtain ⟨inside, -, hnone, hrest, -⟩ := h.taken hlead
    rw [hrest]
    exact Scan.startsInterpolation_append_closer hnone

end Inner

namespace Opens

/-- A container ends behind the place where it starts. -/
theorem le (h : Opens bracket stop c) : c ≤ stop :=
  (Cursor.le_advance_of_peek h.peek).trans h.inner.le

/-- A container has at least one character. -/
theorem lt (h : Opens bracket stop c) : c < stop :=
  (Cursor.lt_advance Nat.one_pos (Cursor.length_pos_of_peek h.peek)).trans_le h.inner.le

/-- The opening bracket ends within the container. -/
theorem charEnd_le (h : Opens bracket stop c) : c.charEnd ≤ stop.offset := by
  rw [Cursor.charEnd_eq (Cursor.ne_nil_of_peek h.peek)]
  exact Cursor.offset_le_of_le h.inner.le

/-- The chunk that recovery skips is the container. -/
theorem balancedChunk (h : Opens bracket stop c) :
    c.offsetAfter (Scan.balancedChunk [] 0 c.rest) = stop.offset := by
  obtain ⟨hpeek, inside, hinside, -, hrest, hstop⟩ := h
  obtain ⟨more, hcons⟩ := List.head?_eq_some_iff.mp hpeek
  have hchunk : c.rest = bracket.opener :: inside ++ [bracket.closer] ++ stop.rest := by
    rw [Cursor.advance_rest, hcons, List.drop_succ_cons, List.drop_zero] at hrest
    rw [hcons, hrest]
    simp
  rw [hchunk, Scan.balancedChunk_bracketed (.mk hinside), hstop, Cursor.advance_advance]
  simp [Cursor.offsetAfter, Nat.add_comm]

end Opens

/-! ### Errors that stay in a container -/

/-- A success meets `post`, and an error does not reach over `stop`. -/
def Outcome.Confined (stop : Cursor) (post : α → Cursor → Prop) : Outcome α → Prop
  | .done value _ d => post value d
  | .failed error _ => error.span.stop ≤ stop.offset
  | .broken _ => True

namespace Outcome.Confined

variable {post post' : α → Cursor → Prop} {outcome : Outcome α}

/-- What stays in front of a place stays in front of any that is further on. -/
theorem mono {stop' : Cursor} (h : outcome.Confined stop post) (hstop : stop ≤ stop')
    (hpost : ∀ value d, post value d → post' value d) : outcome.Confined stop' post' := by
  cases outcome with
  | done => exact hpost _ _ h
  | failed => exact h.trans (Cursor.offset_le_of_le hstop)
  | broken => trivial

/-- Events that came before do not matter. -/
theorem after (h : outcome.Confined stop post) (log : List Event) :
    (outcome.after log).Confined stop post := by
  cases outcome with
  | done => exact h
  | failed => exact h
  | broken => trivial

/-- Two steps stay in the container if the second does wherever the first leads. -/
theorem andThen {post : β → Cursor → Prop} {mid : α → Cursor → Prop}
    {f : α → Cursor → Outcome β} (h : outcome.Confined stop mid)
    (hf : ∀ value d, mid value d → (f value d).Confined stop post) :
    (outcome.andThen f).Confined stop post := by
  cases outcome with
  | done value log d => exact (hf value d h).after log
  | failed => exact h
  | broken => trivial

end Outcome.Confined

namespace Parser

variable {s : Settings} {post : α → Cursor → Prop} {p : Parser α} {f : α → Parser β}

/-- `p` at `c` meets `post`, or it fails with an error that does not reach over `stop`. -/
def Confines (s : Settings) (stop c : Cursor) (p : Parser α) (post : α → Cursor → Prop) : Prop :=
  (p s c).Confined stop post

namespace Confines

/-- The rule for one parser after another. -/
theorem bind {post : β → Cursor → Prop} {mid : α → Cursor → Prop} (hp : Confines s stop c p mid)
    (hf : ∀ value d, mid value d → Confines s stop d (f value) post) :
    Confines s stop c (p >>= f) post :=
  Outcome.Confined.andThen hp hf

/-- A value that meets the condition stays in the container. -/
theorem pure {value : α} (h : post value c) : Confines s stop c (Pure.pure value) post :=
  h

/-- The error of a confined run ends in front of the end of the container. -/
theorem stop_le_of_failed {error : ParseError} {log : List Event} (h : Confines s stop c p post)
    (hrun : p s c = .failed error log) : error.span.stop ≤ stop.offset := by
  rw [Confines, hrun] at h
  exact h

/-- An error that ends in front of the end of the container is confined. -/
theorem failAt {cause : Cause} {i j : Nat} (hij : i ≤ j) (hj : j ≤ stop.offset) :
    Confines s stop c (failAt cause i j) post := by
  rw [Confines, failAt_run hij]
  exact hj

/-- Looking without moving stays at the place. -/
theorem still (hp : Still p) : Confines s stop c p fun _ d => d = c := by
  rw [Confines]
  rcases hp c with ⟨value, hrun⟩ | ⟨fault, hrun⟩
  · rw [hrun]
    exact rfl
  · rw [hrun]
    exact trivial

/-- The span of what has been read moves nothing. -/
theorem spanFrom {i : Nat} {g : Span → α} (h : ∀ value, post value c) :
    Confines s stop c (Parser.spanFrom i >>= fun span => Pure.pure (g span)) post := by
  refine (still (Still.spanFrom i)).bind ?_
  rintro span _ rfl
  exact h _

/-- What is not expected is the next character, which belongs to the container. -/
theorem unexpected {wanted : Wanted} (h : Inner bracket stop c) :
    Confines s stop c (unexpected wanted) post := by
  obtain ⟨x, hpeek, hx⟩ := h.exists_peek
  have hend := h.charEnd_le
  have hle := Cursor.offset_le_of_le h.le
  rw [Confines, unexpected_run hpeek hx]
  show max (min c.charEnd c.statementEnd.offset) c.offset ≤ stop.offset
  omega

end Confines

/-- What follows a parser that is certain to succeed. -/
theorem confines_bind_iff {value : α} {post : β → Cursor → Prop} (h : p s c = .done value [] d) :
    Confines s stop c (p >>= f) post ↔ Confines s stop d (f value) post := by
  rw [Confines, bind_done h, Confines]

/-! ### Inside a container -/

/-- Inside of a container there is content behind the bracket. -/
theorem expectContent_of_inner {opener : Cursor} (h : Inner bracket stop c) :
    expectContent bracket opener s c = .done () [] c := by
  rw [expectContent, bind_done here_run, h.atLineEnd, if_neg Bool.false_ne_true]
  rfl

/-- A separator stays in the container, and the closing bracket ends it. -/
theorem separator_confined {opener : Cursor} (h : Inner bracket stop c) :
    Confines s stop c (separator bracket opener) fun closed d =>
      if closed then d = stop else Inner bracket stop d := by
  have h := h.skipTrivia
  obtain ⟨x, hpeek, hx⟩ := h.exists_peek
  obtain ⟨rest, hrest⟩ := List.head?_eq_some_iff.mp hpeek
  have hone := Cursor.length_pos_of_peek hpeek
  rw [separator, confines_bind_iff skipTrivia_run, confines_bind_iff here_run, hpeek]
  dsimp only
  by_cases hcomma : x = ','
  · subst hcomma
    have hnext : Inner bracket stop (c.skipTrivia.advance 1) :=
      h.taken (hrest ▸ .one (by rfl))
    rw [if_pos (beq_self_eq_true _), confines_bind_iff (take_run hone),
      confines_bind_iff skipTrivia_run, confines_bind_iff here_run]
    split
    · have hend := Cursor.offset_le_of_le h.advance_one_le
      rw [Cursor.advance_one_offset hrest (by rfl)] at hend
      exact .failAt (Nat.le_succ _) hend
    · rw [confines_bind_iff (expectContent_of_inner hnext.skipTrivia)]
      exact .pure hnext.skipTrivia
  · rw [if_neg (by simpa using hcomma)]
    by_cases hclose : x = bracket.closer
    · have hbracket : x = ']' ∨ x = '}' := hclose ▸ Scan.closer_cases bracket
      rw [if_pos (by simpa using hclose), confines_bind_iff (take_run hone)]
      exact .pure (h.close hpeek hbracket).2.symm
    · rw [if_neg (by simpa using hclose)]
      have hother : ¬ (x == '\n' || x == ']' || x == '}') = true := by
        intro hother
        simp only [Bool.or_eq_true, beq_iff_eq, or_assoc] at hother
        rcases hother with hline | hbracket
        · exact hx hline
        · exact hclose (h.close hpeek hbracket).1
      rw [if_neg hother]
      refine .failAt ?_ h.charEnd_le
      rw [Cursor.charEnd_eq h.ne_nil]
      exact Cursor.offset_le_of_le (Cursor.le_advance hone)

/-- The elements of a container end with it. -/
theorem elements_confined {element : Parser α} {opener : Cursor}
    (helement : ∀ c, Inner bracket stop c →
      Confines s stop c element fun _ => Inner bracket stop)
    (fuel : Nat) (h : Inner bracket stop c) :
    Confines s stop c (elements element bracket opener fuel) fun _ d => d = stop := by
  induction fuel generalizing c with
  | zero => exact trivial
  | succ fuel ih =>
      rw [elements]
      refine (helement c h).bind fun first d hd => ?_
      refine (separator_confined hd).bind fun closed e he => ?_
      cases closed with
      | true => exact .pure he
      | false => exact (ih he).bind fun _ _ hend => .pure hend

/-- A key stays in the container. -/
theorem key_confined (h : Inner bracket stop c) :
    Confines s stop c key fun _ => Inner bracket stop := by
  rw [key, confines_bind_iff here_run, h.startsInterpolated, if_neg Bool.false_ne_true]
  by_cases hquoted : Scan.startsQuoted c.rest
  · obtain ⟨q, hok, -, hnext⟩ := h.string hquoted
    rw [if_pos hquoted, confines_bind_iff (quotedString_run hquoted hok)]
    exact .pure hnext
  · rw [if_neg hquoted]
    rcases hword : Scan.word c.rest with _ | n
    · exact .unexpected h
    · have htaken := Scan.taken_word hword
      refine (confines_bind_iff (bareString_run htaken.le_length)).mpr (.pure ?_)
      exact h.taken (htaken.mono fun _ => Scan.isPlain_of_isTokenChar)

/-- The sign between a key and its value stays in the container. -/
theorem operator_confined (h : Inner bracket stop c) :
    Confines s stop c operator fun _ => Inner bracket stop := by
  rw [operator, confines_bind_iff here_run]
  rcases hoperator : c.peek.bind PairOperator.ofChar? with _ | op
  · dsimp only
    rw [h.atLineEnd, if_neg Bool.false_ne_true]
    refine .failAt ?_ h.charEnd_le
    rw [Cursor.charEnd_eq h.ne_nil]
    exact Cursor.offset_le_of_le (Cursor.le_advance (List.length_pos_iff.mpr h.ne_nil))
  · obtain ⟨x, hpeek, hx⟩ := Option.bind_eq_some_iff.mp hoperator
    obtain ⟨rest, hrest⟩ := List.head?_eq_some_iff.mp hpeek
    have hplain : Scan.isPlain x := Scan.isPlain_of_isOperator (by rw [Scan.isOperator, hx]; rfl)
    refine (confines_bind_iff (take_run (Cursor.length_pos_of_peek hpeek))).mpr (.pure ?_)
    exact h.taken (hrest ▸ .one hplain)

/-- A pair stays in the container if its value does. -/
theorem pair_confined {value : Parser NbtValue}
    (hvalue : ∀ c, Inner bracket stop c → Confines s stop c value fun _ => Inner bracket stop)
    (h : Inner bracket stop c) : Confines s stop c (pair value) fun _ => Inner bracket stop := by
  rw [pair, confines_bind_iff here_run]
  refine (key_confined h).bind fun key d hd => ?_
  rw [confines_bind_iff skipTrivia_run]
  refine (operator_confined hd.skipTrivia).bind fun operator e he => ?_
  rw [confines_bind_iff skipTrivia_run]
  exact (hvalue _ he.skipTrivia).bind fun inner f hf => .spanFrom fun _ => hf

/-! ### Containers and values -/

/-- A container is parsed between its brackets: it ends right behind the closing one, or fails with
an error in front of that place. -/
def ConfinesContainer (s : Settings) (bracket : Bracket) (p : Parser α) : Prop :=
  ∀ c stop, Opens bracket stop c → Confines s stop c p fun _ d => d = stop

/-- A value in a container is parsed in it and leaves whole parts. -/
def ConfinesValue (s : Settings) (value : Parser NbtValue) : Prop :=
  ∀ bracket stop c, Inner bracket stop c → Confines s stop c value fun _ => Inner bracket stop

/-- A list is parsed between its brackets if its values stay in it. -/
theorem listOf_confined {value : Parser NbtValue} (hvalue : ConfinesValue s value) :
    ConfinesContainer s .square (listOf value) := by
  intro c stop h
  have hinner := h.inner.skipTrivia
  rw [listOf, confines_bind_iff here_run,
    confines_bind_iff (take_run (Cursor.length_pos_of_peek h.peek)),
    confines_bind_iff skipTrivia_run, confines_bind_iff here_run]
  by_cases hclose : (c.advance 1).skipTrivia.peek = some ']'
  · have hstop := (hinner.close hclose (.inl rfl)).2
    rw [if_pos (by simpa using hclose),
      confines_bind_iff (take_run (Cursor.length_pos_of_peek hclose))]
    exact .spanFrom fun _ => hstop.symm
  · rw [if_neg (by simpa using hclose), confines_bind_iff (expectContent_of_inner hinner)]
    split
    · rw [map_bind]
      refine (elements_confined (fun _ => pair_confined (hvalue _ stop)) _ hinner).bind ?_
      exact fun pairs d hd => .spanFrom fun _ => hd
    · rw [map_bind]
      refine (elements_confined (hvalue _ stop) _ hinner).bind ?_
      exact fun values d hd => .spanFrom fun _ => hd

/-- A compound is parsed between its brackets if its values stay in it. -/
theorem compoundOf_confined {value : Parser NbtValue} (hvalue : ConfinesValue s value) :
    ConfinesContainer s .curly (compoundOf value) := by
  intro c stop h
  have hinner := h.inner.skipTrivia
  rw [compoundOf, confines_bind_iff here_run,
    confines_bind_iff (take_run (Cursor.length_pos_of_peek h.peek)),
    confines_bind_iff skipTrivia_run, confines_bind_iff here_run]
  by_cases hclose : (c.advance 1).skipTrivia.peek = some '}'
  · -- the error about an empty compound covers the compound
    have hstop := (hinner.close hclose (.inr rfl)).2
    obtain ⟨rest, hrest⟩ := List.head?_eq_some_iff.mp hclose
    have hend := Cursor.advance_one_offset hrest (by rfl)
    have hle := Cursor.offset_le_of_le ((Cursor.le_advance_of_peek h.peek).trans
      (Cursor.le_skipTrivia _))
    rw [if_pos (by simpa using hclose)]
    refine .failAt (hle.trans (Nat.le_succ _)) ?_
    rw [hstop, hend]
  · rw [if_neg (by simpa using hclose), confines_bind_iff (expectContent_of_inner hinner)]
    refine (elements_confined (fun _ => pair_confined (hvalue _ stop)) _ hinner).bind ?_
    exact fun pairs d hd => .spanFrom fun _ => hd

/-- A value that holds no others stays in the container. -/
theorem scalar_confined (h : Inner bracket stop c) :
    Confines s stop c scalar fun _ => Inner bracket stop := by
  rw [scalar, confines_bind_iff here_run]
  dsimp only
  split
  · rename_i space path _ hspacePath
    obtain ⟨hspace, hpath⟩ := location_eq_some hspacePath
    refine (confines_bind_iff (resourceLocation_run hspace hpath)).mpr (.pure ?_)
    exact h.taken ((Scan.taken_location hspace hpath).mono fun _ => Scan.isPlain_of_isSolidChar)
  · rename_i n suffix _ _ hnumber
    have htaken := Scan.taken_suffixedNumber (Scan.wholeNumber_eq_some hnumber)
    refine (confines_bind_iff (number_run hnumber)).mpr (.pure ?_)
    exact h.taken (htaken.mono fun _ => Scan.isPlain_of_isTokenChar)
  · rename_i n _ _ hword
    have htaken := Scan.taken_word hword
    have hnext := h.taken (htaken.mono fun _ => Scan.isPlain_of_isTokenChar)
    refine (confines_bind_iff (bareString_run htaken.le_length)).mpr ?_
    split
    · exact .pure hnext
    · exact .pure hnext
    · exact .pure hnext
  · exact .unexpected h

/-! ### Recovery -/

/-- When the error does not reach over the chunk, recovery skips the chunk. -/
theorem skipEnd_of_chunk {error : ParseError} (hlt : c < stop)
    (hchunk : c.offsetAfter (Scan.balancedChunk [] 0 c.rest) = stop.offset)
    (herror : error.span.stop ≤ stop.offset) : skipEnd c error = stop.offset := by
  have hoffset := Cursor.offset_lt_of_lt hlt
  rw [skipEnd, hchunk]
  generalize c.offsetAfter (Scan.statement c.rest) = limit
  rw [max_eq_left ((min_le_left _ _).trans herror), if_neg (by omega)]

/-- When the error does not reach over the chunk, recovery ends behind the chunk. -/
theorem recover_run_of_chunk {error : ParseError} (hlt : c < stop)
    (hchunk : c.offsetAfter (Scan.balancedChunk [] 0 c.rest) = stop.offset)
    (herror : error.span.stop ≤ stop.offset) :
    recover error s c =
      .done ⟨error.message, c.spanTo stop⟩ [.recovered error (c.spanTo stop)] stop :=
  recover_run hlt.le (skipEnd_of_chunk hlt hchunk herror)

/-- Recovery from an error in a container ends right behind the container. -/
theorem recover_run_of_opens {error : ParseError} (h : Opens bracket stop c)
    (herror : error.span.stop ≤ stop.offset) :
    recover error s c =
      .done ⟨error.message, c.spanTo stop⟩ [.recovered error (c.spanTo stop)] stop :=
  recover_run_of_chunk h.lt h.balancedChunk herror

/-- In both modes a container whose errors become placeholders is parsed between its brackets. -/
theorem orPlaceholder_confined {placeholder : ErrorNode → α} (hp : ConfinesContainer s bracket p) :
    ConfinesContainer s bracket (orPlaceholder p placeholder) := by
  intro c stop h
  have hconfined := hp c stop h
  rw [Confines, orPlaceholder, orElse]
  cases hrun : p s c with
  | done value log d =>
      rw [Confines, hrun] at hconfined
      exact hconfined
  | broken fault => exact trivial
  | failed error log =>
      have herror := hconfined.stop_le_of_failed hrun
      refine Outcome.Confined.after ?_ log
      rw [bind_done settings_run]
      cases s.mode with
      | strict => exact herror
      | tolerant =>
          have hrecover : Confines s stop c (recover error) fun _ d => d = stop := by
            rw [Confines, recover_run_of_opens h herror]
            exact rfl
          exact hrecover.bind fun _ _ hd => .pure hd

/-! ### Any number of levels -/

/-- What a container is turned into does not matter for where it ends. -/
theorem ConfinesContainer.map (h : ConfinesContainer s bracket p) (g : α → β) :
    ConfinesContainer s bracket (g <$> p) :=
  fun c stop hopens => (h c stop hopens).bind fun _ _ hd => .pure hd

/-- A container that is cut off fails at its opening bracket. -/
theorem containerTooDeep_confined (bracket : Bracket) :
    ConfinesContainer s bracket (containerTooDeep : Parser α) := by
  obtain ⟨limit, mode⟩ := s
  intro c stop h
  rw [Confines, containerTooDeep_run]
  exact h.charEnd_le

/-- A container in a value is a part, whether it is parsed or skipped. -/
theorem confines_container {bracket' : Bracket} (h : Inner bracket stop c)
    (hp : ConfinesContainer s bracket' p) (hpeek : c.peek = some bracket'.opener) :
    Confines s stop c p fun _ => Inner bracket stop := by
  obtain ⟨stop', hopens, hnext⟩ := h.container hpeek
  refine Outcome.Confined.mono (hp c stop' hopens) hnext.le ?_
  rintro value _ rfl
  exact hnext

/-- A quoted string stays in the container. -/
theorem confines_string (h : Inner bracket stop c) (hquoted : Scan.startsQuoted c.rest)
    {g : StringLiteral → α} :
    Confines s stop c (quotedString >>= fun literal => Pure.pure (g literal))
      fun _ => Inner bracket stop := by
  obtain ⟨q, hok, -, hnext⟩ := h.string hquoted
  exact (confines_bind_iff (quotedString_run hquoted hok)).mpr (.pure hnext)

/-- A value stays in the container if lists and compounds are parsed between their brackets. -/
theorem valueOf_confined {list : Parser NbtList} {compound : Parser NbtCompound}
    (hlist : ConfinesContainer s .square list) (hcompound : ConfinesContainer s .curly compound) :
    ConfinesValue s (valueOf list compound) := by
  intro bracket stop c h
  rw [valueOf, confines_bind_iff here_run, h.startsInterpolated, if_neg Bool.false_ne_true]
  split
  · rename_i hpeek
    exact confines_string h (startsQuoted_of_peek hpeek (.inl rfl))
  · rename_i hpeek
    exact confines_string h (startsQuoted_of_peek hpeek (.inr rfl))
  · rename_i hpeek
    exact confines_container h (orPlaceholder_confined (hlist.map _)) hpeek
  · rename_i hpeek
    exact confines_container h (orPlaceholder_confined (hcompound.map _)) hpeek
  iterate 5 exact Cursor.offset_le_of_le h.le
  · exact scalar_confined h

/-- Lists and compounds are parsed between their brackets, by induction on the room for nesting. -/
theorem list_compound_confined (room : Nat) :
    ConfinesContainer s .square (list room) ∧ ConfinesContainer s .curly (compound room) := by
  induction room with
  | zero => exact ⟨containerTooDeep_confined _, containerTooDeep_confined _⟩
  | succ room ih =>
      have hvalue : ConfinesValue s (value room) := by
        rw [value_eq]
        exact valueOf_confined ih.1 ih.2
      exact ⟨listOf_confined hvalue, compoundOf_confined hvalue⟩

/-- Lists are parsed between their brackets, whatever room for nesting is left. -/
theorem list_confined (room : Nat) : ConfinesContainer s .square (list room) :=
  (list_compound_confined room).1

/-- Compounds are parsed between their brackets, whatever room for nesting is left. -/
theorem compound_confined (room : Nat) : ConfinesContainer s .curly (compound room) :=
  (list_compound_confined room).2

end Parser

end Mcfunction
