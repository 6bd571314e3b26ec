import Mcfunction.Proofs.Returns.Place

/-!
# The Same Run without Carriage Returns

A parser does at each place of a text the same as at its counterpart in the text without returns,
but for the places that it tells, the texts, and one message: where a segment of a path is missing
at the end of a line, the text with returns tells of the return and the one without of the end of
the statement.

`Parser.Mirrors` compares two parsers in this way, with one rule for each way of building a parser.
The turns that a loop may take depend on how much text is left, and are fewer in the text without
returns; a run that breaks a promise is not compared with anything.

## Main results

* `Cause.message_unix`: no other message changes.
* `Parser.Mirrors.bind`: the rule for one parser after another.
-/

namespace Mcfunction

open Text (unix unixCount)

/-! ### The one message that changes -/

/-- A segment of a path is missing, and a return stands in its place. -/
def segmentAtReturn : Cause :=
  .unexpectedToken .segment (some '\r')

/-- A segment of a path is missing, and the statement ends in its place. -/
def segmentAtEnd : Cause :=
  .unexpectedToken .segment none

/-- The cause that is told of the text without returns. -/
def Cause.unix (cause : Cause) : Cause :=
  if cause = segmentAtReturn then segmentAtEnd else cause

/-- The message that is told of the text without returns. -/
def unixMessage (message : String) : String :=
  if message = segmentAtReturn.message then segmentAtEnd.message else message

/-- Only a return is quoted as a backslash and an `r`. -/
theorem Cause.quoteChar_eq_return {c : Char} (h : quoteChar c = quoteChar '\r') : c = '\r' := by
  have hescape : Text.escapeChar c = ['\\', 'r'] := by
    have hchars := String.ofList_inj.mp h
    exact List.append_cancel_right (List.cons.inj hchars).2
  unfold Text.escapeChar at hescape
  split at hescape
  case h_2 => rfl
  case h_7 =>
    split at hescape
    · cases hescape
    · simp [Text.codePointEscape] at hescape
  all_goals simp at hescape

/-- The message for what was not expected quotes the character that was found. -/
theorem Cause.message_found (wanted : Wanted) (c : Char) :
    (unexpectedToken wanted (some c)).message =
      "expected " ++ wanted.phrase ++ ", found " ++ quoteChar c := rfl

/-- It shows a return as an escape. -/
theorem segmentAtReturn_message :
    segmentAtReturn.message = "expected path segment after '.', found '\\r'" := rfl

/-- No other cause has the message. -/
theorem Cause.message_eq_segmentAtReturn {cause : Cause}
    (h : cause.message = segmentAtReturn.message) : cause = segmentAtReturn := by
  have hother : ∀ (front middle back : String) {x chars}, front.toList = x :: chars → x ≠ 'e' →
      front ++ middle ++ back ≠ segmentAtReturn.message := by
    intro front middle back x chars hfront hx heq
    have hchars := congrArg String.toList (heq.trans segmentAtReturn_message)
    rw [String.toList_append, String.toList_append, hfront] at hchars
    exact hx (List.cons.inj hchars).1
  cases cause with
  | unexpectedToken wanted found =>
      cases found with
      | none =>
          revert h
          rw [segmentAtReturn_message]
          cases wanted <;> decide
      | some c =>
          rw [segmentAtReturn, message_found, message_found] at h
          have hchars := congrArg String.toList h
          simp only [String.toList_append] at hchars
          cases wanted with
          | segment =>
              have hquote := String.toList_inj.mp (List.append_cancel_left hchars)
              rw [quoteChar_eq_return hquote]
              rfl
          | _ => simp [Wanted.phrase] at hchars
  | unexpectedCharacter c =>
      exact absurd h (hother "unexpected character " (quoteChar c) " at start of statement"
        rfl (by decide))
  | missingPath space =>
      exact absurd h (hother "resource location '" space "' has no path after ':'"
        rfl (by decide))
  | unknownTarget written =>
      exact absurd h (hother "unknown selector target '" (Text.escape written) "'"
        rfl (by decide))
  | nestingTooDeep limit =>
      have hmessage : (nestingTooDeep limit).message =
          "nesting exceeds the limit of " ++ "" ++ toString limit := rfl
      exact absurd (hmessage.symm.trans h) (hother _ _ _ rfl (by decide))
  | lexical fault =>
      revert h
      rw [segmentAtReturn_message]
      cases fault <;> decide
  | unclosed bracket =>
      revert h
      rw [segmentAtReturn_message]
      cases bracket <;> decide
  | _ =>
      revert h
      rw [segmentAtReturn_message]
      decide

/-- The message of a cause without returns. -/
theorem Cause.message_unix (cause : Cause) : cause.unix.message = unixMessage cause.message := by
  rw [unix, unixMessage]
  by_cases h : cause = segmentAtReturn
  · rw [if_pos h, if_pos (congrArg Cause.message h)]
  · rw [if_neg h, if_neg fun hmessage => h (message_eq_segmentAtReturn hmessage)]

/-- The code of a cause does not depend on returns. -/
theorem Cause.code_unix (cause : Cause) : cause.unix.code = cause.code := by
  rw [unix]
  split
  · rename_i h
    rw [h]
    rfl
  · rfl

/-- What was expected does not depend on returns. -/
theorem Cause.expected_unix (cause : Cause) : cause.unix.expected = cause.expected := by
  rw [unix]
  split
  · rename_i h
    rw [h]
    rfl
  · rfl

/-! ### Errors and events -/

namespace DosText

variable (t : DosText)

/-- How the text without returns tells what this one tells. -/
def retelling : Retelling :=
  ⟨t.place, Text.toUnix, unixMessage⟩

/-- The error that is found in the text without returns. -/
def error (error : ParseError) : ParseError :=
  ⟨error.cause.unix, retell t.retelling error.span⟩

/-- The event that is logged for the text without returns. -/
def event : Event → Event
  | .recovered error skipped => .recovered (t.error error) (retell t.retelling skipped)
  | .skippedStatement error skipped =>
    .skippedStatement (t.error error) (retell t.retelling skipped)
  | .neverInterpolated place => .neverInterpolated (retell t.retelling place)
  | .statement span kind => .statement (retell t.retelling span) kind
  | .started bytes mode => .started bytes mode
  | .finished statements diagnostics => .finished statements diagnostics

/-- The diagnostic of an error is retold with the error. -/
theorem toDiagnostic_error (error : ParseError) :
    (t.error error).toDiagnostic = retell t.retelling error.toDiagnostic := by
  simp only [ParseError.toDiagnostic, ParseError.code, ParseError.message, Diagnostic.ofCode,
    DosText.error, Cause.code_unix, Cause.message_unix, Cause.expected_unix]
  rfl

/-- The diagnostic of an event is retold with the event. -/
theorem diagnostic?_event (event : Event) :
    (t.event event).diagnostic? = event.diagnostic?.map (retell t.retelling) := by
  cases event with
  | started | statement | finished => rfl
  | recovered error skipped => exact congrArg some (t.toDiagnostic_error error)
  | skippedStatement error skipped => exact congrArg some (t.toDiagnostic_error error)
  | neverInterpolated place =>
      have hmessage : "macro line has no $(...) interpolation" =
          unixMessage "macro line has no $(...) interpolation" := (if_neg (by decide)).symm
      have hsame := congrArg
        (fun message => some (Diagnostic.ofCode .neverInterpolated message
          (retell t.retelling place))) hmessage
      exact hsame

/-- The diagnostics are the same, retold. -/
theorem diagnosticsOf_event (log : List Event) :
    diagnosticsOf (log.map t.event) = retell t.retelling (diagnosticsOf log) := by
  have hsame : Event.diagnostic? ∘ t.event =
      fun event => event.diagnostic?.map (retell t.retelling) :=
    funext t.diagnostic?_event
  rw [diagnosticsOf, List.filterMap_map, hsame]
  exact List.map_filterMap.symm

end DosText

/-! ### The same run -/

/-- What the first outcome is for a text, the second is for the text without returns. -/
inductive Outcome.Mirrors {α : Type} [Retell α] (t : DosText) : Outcome α → Outcome α → Prop
  /-- A success. -/
  | done {value log next} : t.start ≤ next →
      Mirrors t (.done value log next)
        (.done (retell t.retelling value) (log.map t.event) (t.back next))
  /-- A failure. -/
  | failed {error log} : Mirrors t (.failed error log) (.failed (t.error error) (log.map t.event))
  /-- A promise broken for the text says nothing. -/
  | broken {fault outcome} : Mirrors t (.broken fault) outcome
  /-- Nor does one broken for the text without returns. -/
  | brokenUnix {fault outcome} : Mirrors t outcome (.broken fault)

/-- Outcomes that mirror each other do so after events that do. -/
theorem Outcome.Mirrors.after {α : Type} [Retell α] {t : DosText} {outcome outcome' : Outcome α}
    (h : outcome.Mirrors t outcome') (log : List Event) :
    (outcome.after log).Mirrors t (outcome'.after (log.map t.event)) := by
  cases h with
  | done hnext =>
      rw [Outcome.after_done, Outcome.after_done, ← List.map_append]
      exact .done hnext
  | failed =>
      rw [Outcome.after_failed, Outcome.after_failed, ← List.map_append]
      exact .failed
  | broken => exact .broken
  | brokenUnix => exact .brokenUnix

namespace Parser

/-- What `p` does at a place of the text, `p'` does at its counterpart in the text without
returns. -/
def Mirrors {α : Type} [Retell α] (t : DosText) (s : Settings) (c : Cursor) (p p' : Parser α) :
    Prop :=
  (p s c).Mirrors t (p' s (t.back c))

section

variable {α β : Type} [Retell α] [Retell β] {t : DosText} {s : Settings} {c d : Cursor}
  {p p' : Parser α}

namespace Mirrors

/-- Two successes that give the same, retold. -/
theorem of_run {value : α} (h : p s c = .done value [] d)
    (h' : p' s (t.back c) = .done (retell t.retelling value) [] (t.back d)) (hd : t.start ≤ d) :
    Mirrors t s c p p' := by
  rw [Mirrors, h, h']
  exact .done hd

/-- The rule for a parser that takes characters without returns. -/
theorem of_free {value : α} {n : Nat} (hc : t.start ≤ c) (hn : Scan.ReturnFree c.rest n)
    (h : p s c = .done value [] (c.advance n))
    (h' : p' s (t.back c) = .done (retell t.retelling value) [] ((t.back c).advance n)) :
    Mirrors t s c p p' := by
  rw [DosText.back_advance_of_free hc hn] at h'
  exact of_run h h' (hc.trans (Cursor.le_advance hn.le_length))

/-- Two failures that tell the same, retold. -/
theorem of_failed {error : ParseError} (h : p s c = .failed error [])
    (h' : p' s (t.back c) = .failed (t.error error) []) : Mirrors t s c p p' := by
  rw [Mirrors, h, h']
  exact .failed

/-- A returned value is retold. -/
theorem pure (value : α) (hc : t.start ≤ c) :
    Mirrors t s c (Pure.pure value) (Pure.pure (retell t.retelling value)) :=
  .done hc

/-- A failure is retold. -/
theorem fail (error : ParseError) : Mirrors t s c (fail error : Parser α) (fail (t.error error)) :=
  .failed

/-- Nothing is asked where a promise is broken. -/
theorem breakOff (fault : Fault) : Mirrors t s c (breakOff fault) p' :=
  .broken

/-- Nor where it is broken in the other text. -/
theorem breakOffUnix (fault : Fault) : Mirrors t s c p (Parser.breakOff fault) :=
  .brokenUnix

/-- A failure between offsets is retold, if the cause and the offsets are. -/
theorem failAt {cause cause' : Cause} {i j i' j' : Nat} (hcause : cause' = cause.unix)
    (hi : i' = t.place i) (hj : j' = t.place j) :
    Mirrors t s c (failAt cause i j : Parser α) (failAt cause' i' j') := by
  subst hcause hi hj
  by_cases hle : i ≤ j
  · exact of_failed (failAt_run hle) (failAt_run (DosText.place_mono hle))
  · have hbroken : (Parser.failAt cause i j : Parser α) s c = .broken (.invertedSpan i j) := by
      rw [Parser.failAt, bind_run, span, Span.between, if_neg hle]
      rfl
    rw [Mirrors, hbroken]
    exact .broken

/-- The rule for one parser after another, with what the first one did. -/
theorem bind_of {f f' : α → Parser β} (h : Mirrors t s c p p')
    (hf : ∀ value log d, p s c = .done value log d → t.start ≤ d →
      Mirrors t s d (f value) (f' (retell t.retelling value))) :
    Mirrors t s c (p >>= f) (p' >>= f') := by
  rw [Mirrors] at h ⊢
  rw [bind_run, bind_run]
  generalize hrun : p s c = outcome at h ⊢
  generalize p' s (t.back c) = outcome' at h ⊢
  cases h with
  | done hnext =>
      rw [Outcome.andThen_done, Outcome.andThen_done]
      exact (hf _ _ _ hrun hnext).after _
  | failed =>
      rw [Outcome.andThen_failed, Outcome.andThen_failed]
      exact .failed
  | broken => exact .broken
  | brokenUnix => exact .brokenUnix

/-- Two parsers one after the other mirror each other if both do. -/
theorem bind {f f' : α → Parser β} (h : Mirrors t s c p p')
    (hf : ∀ value d, t.start ≤ d →
      Mirrors t s d (f value) (f' (retell t.retelling value))) :
    Mirrors t s c (p >>= f) (p' >>= f') :=
  h.bind_of fun value _ d _ hd => hf value d hd

/-- Mapping mirrors mapping if the functions retell alike. -/
theorem map {g g' : α → β} (h : Mirrors t s c p p')
    (hg : ∀ value, g' (retell t.retelling value) = retell t.retelling (g value)) :
    Mirrors t s c (g <$> p) (g' <$> p') := by
  rw [map_eq_bind, map_eq_bind]
  refine h.bind fun value d hd => ?_
  rw [hg]
  exact .pure _ hd

/-- Handling errors mirrors handling errors. -/
theorem orElse {handler handler' : ParseError → Parser α} (h : Mirrors t s c p p')
    (hhandler : ∀ error, Mirrors t s c (handler error) (handler' (t.error error))) :
    Mirrors t s c (orElse p handler) (orElse p' handler') := by
  rw [Mirrors] at h ⊢
  rw [Parser.orElse, Parser.orElse]
  generalize p s c = outcome at h ⊢
  generalize p' s (t.back c) = outcome' at h ⊢
  cases h with
  | done hnext => exact .done hnext
  | failed => exact (hhandler _).after _
  | broken => exact .broken
  | brokenUnix => exact .brokenUnix

end Mirrors

/-! ### Steps that are certain to succeed -/

variable {γ γ' : Type} {f : γ → Parser α} {f' : γ' → Parser α}

/-- What succeeds without an event can be taken out of what mirrors each other. -/
theorem mirrors_bind_iff {q : Parser γ} {q' : Parser γ'} {value : γ} {value' : γ'}
    (h : q s c = .done value [] d) (h' : q' s (t.back c) = .done value' [] (t.back d)) :
    Mirrors t s c (q >>= f) (q' >>= f') ↔ Mirrors t s d (f value) (f' value') := by
  rw [Mirrors, Mirrors, bind_done h, bind_done h']

/-- A returned value can be taken out. -/
theorem mirrors_pure_bind {value : γ} {value' : γ'} :
    Mirrors t s c (Pure.pure value >>= f) (Pure.pure value' >>= f') ↔
      Mirrors t s c (f value) (f' value') :=
  mirrors_bind_iff rfl rfl

/-- So can a look at the place. -/
theorem mirrors_here_bind {f f' : Cursor → Parser α} :
    Mirrors t s c (here >>= f) (here >>= f') ↔ Mirrors t s c (f c) (f' (t.back c)) :=
  mirrors_bind_iff rfl rfl

/-- So can a look at the settings. -/
theorem mirrors_settings_bind {f f' : Settings → Parser α} :
    Mirrors t s c (settings >>= f) (settings >>= f') ↔ Mirrors t s c (f s) (f' s) :=
  mirrors_bind_iff rfl rfl

/-- So can a move. -/
theorem mirrors_moveTo_bind {f f' : Unit → Parser α} :
    Mirrors t s c (moveTo d >>= f) (moveTo (t.back d) >>= f') ↔ Mirrors t s d (f ()) (f' ()) :=
  mirrors_bind_iff rfl rfl

/-- So can characters that are taken. -/
theorem mirrors_take_bind {f f' : Unit → Parser α} {n n' : Nat} (hc : t.start ≤ c)
    (hn : n ≤ c.rest.length) (hn' : n' = unixCount c.rest n) :
    Mirrors t s c (take n >>= f) (take n' >>= f') ↔
      Mirrors t s (c.advance n) (f ()) (f' ()) := by
  subst hn'
  refine mirrors_bind_iff (take_run hn) ?_
  rw [take_run (Text.unixCount_le_length _ _), DosText.back_advance hc hn]

/-- So can trivia that are skipped. -/
theorem mirrors_skipTrivia_bind {f f' : Unit → Parser α} (hc : t.start ≤ c) :
    Mirrors t s c (skipTrivia >>= f) (skipTrivia >>= f') ↔
      Mirrors t s c.skipTrivia (f ()) (f' ()) := by
  refine mirrors_bind_iff skipTrivia_run ?_
  rw [skipTrivia_run, DosText.back_skipTrivia hc]

/-- An event that is logged is retold. -/
theorem Mirrors.log_bind {f f' : Unit → Parser α} {event event' : Event}
    (hevent : event' = t.event event) (h : Mirrors t s c (f ()) (f' ())) :
    Mirrors t s c (log event >>= f) (log event' >>= f') := by
  subst hevent
  rw [Mirrors, bind_run, bind_run, log_run, log_run, Outcome.andThen_done, Outcome.andThen_done]
  exact Outcome.Mirrors.after h [event]

/-- A span is retold if its offsets are. -/
theorem Mirrors.span {i j i' j' : Nat} (hi : i' = t.place i) (hj : j' = t.place j)
    (hc : t.start ≤ c) : Mirrors t s c (span i j) (span i' j') := by
  subst hi hj
  by_cases hle : i ≤ j
  · exact .of_run (span_run hle) (span_run (DosText.place_mono hle)) hc
  · have hbroken : Parser.span i j s c = .broken (.invertedSpan i j) := by
      rw [Parser.span, Span.between, if_neg hle]
      rfl
    rw [Mirrors, hbroken]
    exact .broken

/-- A span up to the place is retold. -/
theorem Mirrors.spanFrom {i i' : Nat} (hi : i' = t.place i) (hc : t.start ≤ c) :
    Mirrors t s c (spanFrom i) (spanFrom i') := by
  rw [Parser.spanFrom, Parser.spanFrom, mirrors_here_bind]
  exact .span hi rfl hc

/-- Going to an offset mirrors going to the offset without returns. -/
theorem Mirrors.goTo_bind {f f' : Unit → Parser α} {i i' : Nat} (hc : t.start ≤ c)
    (hi : i' = t.place i) (h : ∀ d, c ≤ d → Mirrors t s d (f ()) (f' ())) :
    Mirrors t s c (goTo i >>= f) (goTo i' >>= f') := by
  subst hi
  rcases hd : c.at? i with _ | d
  · have hbroken : (goTo i >>= f) s c = .broken (.badOffset i) := by
      rw [bind_run, goTo, bind_done here_run, hd]
      rfl
    rw [Mirrors, hbroken]
    exact .broken
  · obtain ⟨hle, rfl⟩ := Cursor.at?_eq_some hd
    have hrun : goTo (t.place d.offset) s (t.back c) = .done () [] (t.back d) :=
      goTo_run (DosText.back_le hc hle)
    exact (mirrors_bind_iff (goTo_run hle) hrun).mpr (h d hle)

/-- Cutting out characters mirrors cutting out those that stay. -/
theorem Mirrors.slice_bind {f f' : List Char → Parser α} {i j i' j' : Nat} (hd : t.start ≤ d)
    (hi : i' = t.place i) (hj : j' = t.place j)
    (h : ∀ (e : Cursor) n, t.start ≤ e →
      Mirrors t s c (f (e.rest.take n)) (f' (unix (e.rest.take n)))) :
    Mirrors t s c (slice d i j >>= f) (slice (t.back d) i' j' >>= f') := by
  subst hi hj
  rcases hslice : d.slice? i j with _ | chars
  · have hbroken : (slice d i j >>= f) s c = .broken (.badSlice i j) := by
      rw [bind_run, slice, hslice]
      rfl
    rw [Mirrors, hbroken]
    exact .broken
  · obtain ⟨hback, e, n, he, rfl⟩ := DosText.back_slice? hd hslice
    have hrun : slice d i j s c = .done (e.rest.take n) [] c := by
      rw [slice, hslice]
      rfl
    have hrun' : slice (t.back d) (t.place i) (t.place j) s (t.back c) =
        .done (unix (e.rest.take n)) [] (t.back c) := by
      rw [slice, hback]
      rfl
    exact (mirrors_bind_iff hrun hrun').mpr (h e n he)

end

end Parser

end Mcfunction
