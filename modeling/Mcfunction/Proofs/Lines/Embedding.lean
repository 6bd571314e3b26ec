import Mcfunction.Proofs.Lines.Scan.Token
import Mcfunction.Proofs.Lines.Shift
import Mcfunction.Proofs.Reading

/-!
# Texts in Longer Texts

A text may stand in a longer one: after so many bytes, and with nothing after it or a line
break that ends its last line. A parser then does at each place of the text the same as at that
place in the longer text, but for the places that it tells.

`Parser.Copies` compares two parsers in this way, with one rule for each way of building a
parser. The two need not be equal, since the turns that a loop may take depend on how much text
is left. A run that breaks a promise is not compared with anything.

## Main results

* `Embedding.place_advance`: moving over characters leads to the same place.
* `Parser.Copies.bind`: the rule for one parser after another.
-/

namespace Mcfunction

/-- A text in a longer one. -/
structure Embedding where
  /-- The place where the text starts. -/
  start : Cursor
  /-- How many bytes more stand before it in the longer text. -/
  bytes : Nat
  /-- What follows it in the longer text. -/
  tail : List Char
  /-- What follows does not belong to its last line. -/
  ends : Scan.Ends start.rest tail

namespace Embedding

variable (e : Embedding) {c d : Cursor} {m n : Nat}

/-- The place in the longer text of a place in the text. -/
def place (c : Cursor) : Cursor :=
  ⟨c.offset + e.bytes, c.rest ++ e.tail⟩

variable {e}

/-- At every place of the text, what follows it starts at the end of a line. -/
theorem ends_of_le (h : e.start ≤ c) : Scan.Ends c.rest e.tail :=
  e.ends.of_suffix (Cursor.rest_suffix_of_le h)

/-- Moving on within the text is moving on at its place. -/
theorem place_advance (h : n ≤ c.rest.length) :
    (e.place c).advance n = e.place (c.advance n) := by
  have hlen : n ≤ (e.place c).rest.length := h.trans (by simp [place])
  have hoffset : ((e.place c).advance n).offset = (e.place (c.advance n)).offset := by
    rw [Cursor.advance_offset hlen]
    simp only [place, Cursor.advance_offset h, Scan.take_append h]
    omega
  have hrest : ((e.place c).advance n).rest = (e.place (c.advance n)).rest := by
    simp only [Cursor.advance_rest, place, Scan.drop_append h]
  calc (e.place c).advance n
      = ⟨((e.place c).advance n).offset, ((e.place c).advance n).rest⟩ := rfl
    _ = e.place (c.advance n) := by rw [hoffset, hrest]

/-- The offset behind `n` characters of the text is that many bytes further in the longer one. -/
theorem place_offsetAfter (h : n ≤ c.rest.length) :
    (e.place c).offsetAfter n = c.offsetAfter n + e.bytes := by
  rw [Cursor.offsetAfter, place_advance h]
  rfl

/-- Places keep the order of cursors. -/
theorem place_le (h : c ≤ d) : e.place c ≤ e.place d := by
  obtain ⟨chars, hrest, hoffset⟩ := h
  refine ⟨chars, ?_, ?_⟩
  · simp only [place, hrest, List.append_assoc]
  · simp only [place, hoffset]
    omega

/-- The longer text has at least as many characters left. -/
theorem length_le_place (c : Cursor) : c.rest.length ≤ (e.place c).rest.length := by
  simp [place]

/-- The text between two places is the same in both. -/
theorem place_textBetween (h : n ≤ c.rest.length) :
    (e.place c).textBetween m n = c.textBetween m n := by
  rcases Nat.le_total n m with hle | hle
  · simp [Cursor.textBetween, Nat.sub_eq_zero_of_le hle]
  · have hlen : n - m ≤ (c.rest.drop m).length := by
      rw [List.length_drop]
      omega
    simp only [Cursor.textBetween, place, Scan.drop_append (hle.trans h), Scan.take_append hlen]

/-- The next character is the same as long as the text has one left. -/
theorem place_peek (h : c.rest ≠ []) : (e.place c).peek = c.peek := by
  obtain ⟨x, rest, hrest⟩ := List.exists_cons_of_ne_nil h
  simp [Cursor.peek, place, hrest]

/-- At the end of the text, the longer one has ended too or goes on with another line. -/
theorem place_peek_nil (h : c.rest = []) :
    (e.place c).peek = none ∨ (e.place c).peek = some '\n' := by
  have hline := e.ends.atLineEnd
  rcases htail : e.tail with _ | ⟨x, rest⟩
  · left
    simp [Cursor.peek, place, h, htail]
  · right
    obtain rfl : x = '\n' := by simpa [htail, Scan.atLineEnd] using hline
    simp [Cursor.peek, place, h, htail]

/-- Only the end of the text may look different in the longer one. -/
theorem place_peek_cases (e : Embedding) (c : Cursor) :
    (e.place c).peek = c.peek ∨ c.peek = none ∧ (e.place c).peek = some '\n' := by
  by_cases h : c.rest = []
  · have hnone : c.peek = none := by simp [Cursor.peek, h]
    rcases place_peek_nil (e := e) h with hpeek | hpeek
    · exact .inl (hpeek.trans hnone.symm)
    · exact .inr ⟨hnone, hpeek⟩
  · exact .inl (place_peek h)

/-- What a line break does not tell apart from the end of the text is told in both texts. -/
theorem place_peek_bind {α : Type} {f : Char → Option α} (hf : f '\n' = none) :
    (e.place c).peek.bind f = c.peek.bind f := by
  rcases place_peek_cases e c with h | ⟨hnone, hnewline⟩
  · rw [h]
  · rw [hnone, hnewline]
    exact hf

/-- Only the end of a line looks different in the longer text. -/
theorem place_peek_eq_some {x : Char} (hx : x ≠ '\n') :
    (e.place c).peek = some x ↔ c.peek = some x := by
  by_cases h : c.rest = []
  · have hnone : c.peek = none := by simp [Cursor.peek, h]
    rcases place_peek_nil (e := e) h with hpeek | hpeek <;> simp [hnone, hpeek, hx.symm]
  · rw [place_peek h]

/-- The end of the next character is shifted by the bytes before the text. -/
theorem place_charEnd (h : c.rest ≠ []) : (e.place c).charEnd = c.charEnd + e.bytes := by
  have hlen : 1 ≤ c.rest.length := List.length_pos_iff.mpr h
  have hne : (e.place c).rest ≠ [] := by simp [place, h]
  rw [Cursor.charEnd_eq hne, Cursor.charEnd_eq h, place_advance hlen]
  rfl

/-- Spacing ends at the same place in both texts. -/
theorem place_skipTrivia (h : e.start ≤ c) : (e.place c).skipTrivia = e.place c.skipTrivia := by
  have hscan : Scan.trivia (e.place c).rest = Scan.trivia c.rest :=
    Scan.trivia_append_tail (ends_of_le h)
  rw [Cursor.skipTrivia, hscan, place_advance (Scan.trivia_le_length _)]
  rfl

/-- Statements end at the same place in both texts. -/
theorem place_statementEnd (h : e.start ≤ c) :
    (e.place c).offsetAfter (Scan.statement (e.place c).rest) =
      c.offsetAfter (Scan.statement c.rest) + e.bytes := by
  have hscan : Scan.statement (e.place c).rest = Scan.statement c.rest :=
    Scan.statement_append (ends_of_le h)
  rw [hscan, place_offsetAfter (Scan.statement_le_length _)]

/-- A line ends at a place of the text if and only if it ends there in the longer one. -/
theorem place_atLineEnd (h : e.start ≤ c) :
    Scan.atLineEnd (e.place c).rest = Scan.atLineEnd c.rest :=
  Scan.atLineEnd_append (ends_of_le h)

/-- What stands between two offsets stands there in the longer text. -/
theorem place_slice? {i j : Nat} {chars : List Char} (h : c.slice? i j = some chars) :
    (e.place c).slice? (i + e.bytes) (j + e.bytes) = some chars := by
  obtain ⟨d, hd, hcut⟩ := Option.bind_eq_some_iff.mp h
  obtain ⟨hle, rfl⟩ := Cursor.at?_eq_some hd
  obtain ⟨rfl, rest, hrest⟩ := Cursor.cut?_eq_some hcut
  have hfound : (e.place c).at? (d.offset + e.bytes) = some (e.place d) :=
    Cursor.at?_offset (place_le hle)
  have hstop : d.offset + byteWidth chars + e.bytes = (e.place d).offset + byteWidth chars := by
    simp only [place]
    omega
  rw [Cursor.slice?, hfound, Option.bind_some, hstop]
  simp only [place, hrest, List.append_assoc]
  exact Cursor.cut?_append _ _ _

/-- How much stands between two places. -/
theorem place_length_sub (c d : Cursor) :
    (e.place c).rest.length - (e.place d).rest.length = c.rest.length - d.rest.length := by
  simp only [place, List.length_append]
  omega

/-- The place where the text ends. -/
def finish (e : Embedding) : Cursor :=
  e.start.advance e.start.rest.length

/-- At the end of the text nothing of it is left. -/
theorem finish_rest (e : Embedding) : e.finish.rest = [] := by
  rw [finish, Cursor.advance_rest, List.drop_length]

/-- The text ends as many bytes behind its start as it is long. -/
theorem finish_offset (e : Embedding) :
    e.finish.offset = e.start.offset + byteWidth e.start.rest := by
  rw [finish, Cursor.advance_offset (le_refl _), List.take_length]

/-- A place of the text with nothing left is its end. -/
theorem eq_finish (hc : e.start ≤ c) (hrest : c.rest = []) : c = e.finish := by
  obtain ⟨n, hn, rfl⟩ := Cursor.le_iff_exists_advance.mp hc
  rw [Cursor.advance_rest] at hrest
  have hlen : e.start.rest.length ≤ n := List.drop_eq_nil_iff.mp hrest
  rw [finish, Nat.le_antisymm hlen hn]

end Embedding

/-! ### The same run in the longer text -/

/-- What the first outcome is for a text, the second is for the longer one. -/
inductive Outcome.Copies {α : Type} [Shift α] (e : Embedding) : Outcome α → Outcome α → Prop
  /-- A success. -/
  | done {value log next} : e.start ≤ next →
      Copies e (.done value log next)
        (.done (shift e.bytes value) (shift e.bytes log) (e.place next))
  /-- A failure. -/
  | failed {error log} :
      Copies e (.failed error log) (.failed (shift e.bytes error) (shift e.bytes log))
  /-- A broken promise says nothing. -/
  | broken {fault outcome} : Copies e (.broken fault) outcome

/-- Events that came before are copied along with the outcome. -/
theorem Outcome.Copies.after {α : Type} [Shift α] {e : Embedding} {outcome outcome' : Outcome α}
    (h : outcome.Copies e outcome') (log : List Event) :
    (outcome.after log).Copies e (outcome'.after (shift e.bytes log)) := by
  cases h with
  | done hnext =>
      rw [Outcome.after_done, Outcome.after_done, ← shift_append]
      exact .done hnext
  | failed =>
      rw [Outcome.after_failed, Outcome.after_failed, ← shift_append]
      exact .failed
  | broken => exact .broken

namespace Parser

/-- What `p` does at a place of the text, `p'` does there in the longer one. -/
def Copies {α : Type} [Shift α] (e : Embedding) (s : Settings) (c : Cursor) (p p' : Parser α) :
    Prop :=
  (p s c).Copies e (p' s (e.place c))

section

variable {α β : Type} [Shift α] [Shift β] {e : Embedding} {s : Settings} {c d : Cursor}
  {p p' : Parser α}

namespace Copies

/-- Two runs that give corresponding values at corresponding places copy each other. -/
theorem of_run {value : α} (h : p s c = .done value [] d)
    (h' : p' s (e.place c) = .done (shift e.bytes value) [] (e.place d)) (hd : e.start ≤ d) :
    Copies e s c p p' := by
  rw [Copies, h, h']
  exact .done hd

/-- Two runs that fail with corresponding errors copy each other. -/
theorem of_failed {error : ParseError} (h : p s c = .failed error [])
    (h' : p' s (e.place c) = .failed (shift e.bytes error) []) : Copies e s c p p' := by
  rw [Copies, h, h']
  exact .failed

/-- If the run of the text succeeds, so does the one of the longer text. -/
theorem run_done {value : α} {log : List Event} (h : Copies e s c p p')
    (hrun : p s c = .done value log d) : e.start ≤ d ∧
      p' s (e.place c) = .done (shift e.bytes value) (shift e.bytes log) (e.place d) := by
  rw [Copies, hrun] at h
  generalize p' s (e.place c) = outcome at h ⊢
  cases h with
  | done hd => exact ⟨hd, rfl⟩

/-- Values are copied. -/
theorem pure (value : α) (hc : e.start ≤ c) :
    Copies e s c (Pure.pure value) (Pure.pure (shift e.bytes value)) :=
  .done hc

/-- Failures are copied. -/
theorem fail (error : ParseError) :
    Copies e s c (fail error : Parser α) (fail (shift e.bytes error)) :=
  .failed

/-- Nothing is asked of the longer text where the text breaks a promise. -/
theorem breakOff (fault : Fault) : Copies e s c (breakOff fault) p' :=
  .broken

/-- An error with corresponding offsets is copied. -/
theorem failAt {cause : Cause} {i j i' j' : Nat} (hi : i' = i + e.bytes) (hj : j' = j + e.bytes) :
    Copies e s c (failAt cause i j : Parser α) (failAt cause i' j') := by
  subst hi hj
  by_cases hle : i ≤ j
  · have hle' : i + e.bytes ≤ j + e.bytes := Nat.add_le_add_right hle _
    exact of_failed (failAt_run hle) (failAt_run hle')
  · have hbroken : (Parser.failAt cause i j : Parser α) s c = .broken (.invertedSpan i j) := by
      rw [Parser.failAt, bind_run, span, Span.between, if_neg hle]
      rfl
    rw [Copies, hbroken]
    exact .broken

/-- Two parsers in a row are copied if each of them is. -/
theorem bind {f f' : α → Parser β} (h : Copies e s c p p')
    (hf : ∀ value d, e.start ≤ d → Copies e s d (f value) (f' (shift e.bytes value))) :
    Copies e s c (p >>= f) (p' >>= f') := by
  rw [Copies] at h ⊢
  rw [bind_run, bind_run]
  generalize p s c = outcome at h ⊢
  generalize p' s (e.place c) = outcome' at h ⊢
  cases h with
  | done hnext =>
      rw [Outcome.andThen_done, Outcome.andThen_done]
      exact (hf _ _ hnext).after _
  | failed =>
      rw [Outcome.andThen_failed, Outcome.andThen_failed]
      exact .failed
  | broken => exact .broken

/-- Corresponding functions on the values keep the copy. -/
theorem map {g g' : α → β} (h : Copies e s c p p')
    (hg : ∀ value, g' (shift e.bytes value) = shift e.bytes (g value)) :
    Copies e s c (g <$> p) (g' <$> p') := by
  rw [map_eq_bind, map_eq_bind]
  refine h.bind fun value d hd => ?_
  rw [hg]
  exact .pure _ hd

/-- Alternatives are copied if both parsers and their handlers are. -/
theorem orElse {handler handler' : ParseError → Parser α} (h : Copies e s c p p')
    (hhandler : ∀ error, Copies e s c (handler error) (handler' (shift e.bytes error))) :
    Copies e s c (orElse p handler) (orElse p' handler') := by
  rw [Copies] at h ⊢
  rw [Parser.orElse, Parser.orElse]
  generalize p s c = outcome at h ⊢
  generalize p' s (e.place c) = outcome' at h ⊢
  cases h with
  | done hnext => exact .done hnext
  | failed => exact (hhandler _).after _
  | broken => exact .broken

end Copies

/-! ### Steps that are certain to succeed -/

variable {γ γ' : Type} {f : γ → Parser α} {f' : γ' → Parser α}

/-- Behind a step that ends at corresponding places, only the rest has to be copied. -/
theorem copies_bind_iff {q : Parser γ} {q' : Parser γ'} {value : γ} {value' : γ'}
    (h : q s c = .done value [] d) (h' : q' s (e.place c) = .done value' [] (e.place d)) :
    Copies e s c (q >>= f) (q' >>= f') ↔ Copies e s d (f value) (f' value') := by
  rw [Copies, Copies, bind_done h, bind_done h']

/-- A value that is handed on leaves only the rest to be copied. -/
theorem copies_pure_bind {value : γ} {value' : γ'} :
    Copies e s c (Pure.pure value >>= f) (Pure.pure value' >>= f') ↔
      Copies e s c (f value) (f' value') :=
  copies_bind_iff rfl rfl

/-- Asking for the place gives corresponding places. -/
theorem copies_here_bind {f f' : Cursor → Parser α} :
    Copies e s c (here >>= f) (here >>= f') ↔ Copies e s c (f c) (f' (e.place c)) :=
  copies_bind_iff rfl rfl

/-- Both parsers have the same settings. -/
theorem copies_settings_bind {f f' : Settings → Parser α} :
    Copies e s c (settings >>= f) (settings >>= f') ↔ Copies e s c (f s) (f' s) :=
  copies_bind_iff rfl rfl

/-- Moving to corresponding places leaves only the rest to be copied. -/
theorem copies_moveTo_bind {f f' : Unit → Parser α} :
    Copies e s c (moveTo d >>= f) (moveTo (e.place d) >>= f') ↔ Copies e s d (f ()) (f' ()) :=
  copies_bind_iff rfl rfl

/-- Taking characters of the text leaves only the rest to be copied. -/
theorem copies_take_bind {f f' : Unit → Parser α} {n : Nat} (h : n ≤ c.rest.length) :
    Copies e s c (take n >>= f) (take n >>= f') ↔ Copies e s (c.advance n) (f ()) (f' ()) := by
  refine copies_bind_iff (take_run h) ?_
  rw [take_run (h.trans (Embedding.length_le_place c)), Embedding.place_advance h]

/-- Skipping spacing leaves only the rest to be copied. -/
theorem copies_skipTrivia_bind {f f' : Unit → Parser α} (hc : e.start ≤ c) :
    Copies e s c (skipTrivia >>= f) (skipTrivia >>= f') ↔
      Copies e s c.skipTrivia (f ()) (f' ()) := by
  refine copies_bind_iff skipTrivia_run ?_
  rw [skipTrivia_run, Embedding.place_skipTrivia hc]

/-- Corresponding events may be logged first. -/
theorem Copies.log_bind {f f' : Unit → Parser α} {event event' : Event}
    (hevent : event' = shift e.bytes event) (h : Copies e s c (f ()) (f' ())) :
    Copies e s c (log event >>= f) (log event' >>= f') := by
  subst hevent
  rw [Copies, bind_run, bind_run, log_run, log_run, Outcome.andThen_done, Outcome.andThen_done]
  exact Outcome.Copies.after h [event]

/-- Spans with corresponding ends are copied. -/
theorem Copies.span {i j i' j' : Nat} (hi : i' = i + e.bytes) (hj : j' = j + e.bytes)
    (hc : e.start ≤ c) : Copies e s c (span i j) (span i' j') := by
  subst hi hj
  by_cases hle : i ≤ j
  · have hle' : i + e.bytes ≤ j + e.bytes := Nat.add_le_add_right hle _
    exact .of_run (span_run hle) (span_run hle') hc
  · have hbroken : Parser.span i j s c = .broken (.invertedSpan i j) := by
      rw [Parser.span, Span.between, if_neg hle]
      rfl
    rw [Copies, hbroken]
    exact .broken

/-- Spans from corresponding offsets up to here are copied. -/
theorem Copies.spanFrom {i i' : Nat} (hi : i' = i + e.bytes) (hc : e.start ≤ c) :
    Copies e s c (spanFrom i) (spanFrom i') := by
  rw [Parser.spanFrom, Parser.spanFrom, copies_here_bind]
  exact .span hi rfl hc

/-- Going to corresponding offsets leaves only the rest to be copied. -/
theorem Copies.goTo_bind {f f' : Unit → Parser α} {i i' : Nat} (hi : i' = i + e.bytes)
    (h : ∀ d, c ≤ d → Copies e s d (f ()) (f' ())) :
    Copies e s c (goTo i >>= f) (goTo i' >>= f') := by
  subst hi
  rcases hd : c.at? i with _ | d
  · have hbroken : (goTo i >>= f) s c = .broken (.badOffset i) := by
      rw [bind_run, goTo, bind_done here_run, hd]
      rfl
    rw [Copies, hbroken]
    exact .broken
  · obtain ⟨hle, rfl⟩ := Cursor.at?_eq_some hd
    have hrun : goTo (d.offset + e.bytes) s (e.place c) = .done () [] (e.place d) :=
      goTo_run (Embedding.place_le hle)
    exact (copies_bind_iff (goTo_run hle) hrun).mpr (h d hle)

/-- Slices between corresponding offsets are the same text. -/
theorem Copies.slice_bind {f f' : List Char → Parser α} {i j i' j' : Nat}
    (hi : i' = i + e.bytes) (hj : j' = j + e.bytes)
    (h : ∀ chars, Copies e s c (f chars) (f' chars)) :
    Copies e s c (slice d i j >>= f) (slice (e.place d) i' j' >>= f') := by
  subst hi hj
  rcases hslice : d.slice? i j with _ | chars
  · have hbroken : (slice d i j >>= f) s c = .broken (.badSlice i j) := by
      rw [bind_run, slice, hslice]
      rfl
    rw [Copies, hbroken]
    exact .broken
  · have hrun : slice d i j s c = .done chars [] c := by
      rw [slice, hslice]
      rfl
    have hrun' : slice (e.place d) (i + e.bytes) (j + e.bytes) s (e.place c) =
        .done chars [] (e.place c) := by
      rw [slice, Embedding.place_slice? hslice]
      rfl
    exact (copies_bind_iff hrun hrun').mpr (h chars)

end

end Parser

end Mcfunction
