import Mcfunction.Parser.Recovery
import Mcfunction.Proofs.Cursor
import Mcfunction.Proofs.Scan.Token

/-!
# Reasoning about Parsers

What a parser does is said for both modes at once. `Reads limit origin c p post` runs `p` at `c`
in strict and in tolerant mode and compares the outcomes: either both succeed alike, in a way
that meets `post`, or both fail alike, or the strict run fails with the first error that the
tolerant run logged before it went on. In no case is a promise of the program broken, and every
error has a span between two places from `origin` on.

The rules follow the steps of a parser: a step that is certain is described by an equation
`p s c = .done …`, and `reads_bind_iff` moves on past it; `Reads.bind` joins parsers whose
outcome is open.

`Within c d` says that the way from `c` to `d` does not leave the statement.

## Main results

* `Within.trans`: parsers that stay in their statement can follow one another.
* `Parser.Reads.bind`: the rule for one parser after another.
* `Outcome.Lockstep.sound_strict`, `Outcome.Lockstep.sound_tolerant`: what each run does on its
  own.
-/

namespace Mcfunction

/-! ### Staying in a statement -/

namespace Cursor

/-- The place where the statement at the cursor ends. -/
def statementEnd (c : Cursor) : Cursor :=
  c.advance (Scan.statement c.rest)

/-- The place where the trivia at the cursor end. -/
def skipTrivia (c : Cursor) : Cursor :=
  c.advance (Scan.trivia c.rest)

/-- The span from one place to another. -/
def spanTo (c d : Cursor) : Span :=
  ⟨c.offset, d.offset⟩

/-- The text between two counts of characters from the cursor. -/
def textBetween (c : Cursor) (m n : Nat) : String :=
  String.ofList ((c.rest.drop m).take (n - m))

/-- A statement ends at or behind the place where one looks at it. -/
theorem le_statementEnd (c : Cursor) : c ≤ c.statementEnd :=
  le_advance (Scan.statement_le_length _)

/-- Trivia end at or behind the place where they start. -/
theorem le_skipTrivia (c : Cursor) : c ≤ c.skipTrivia :=
  le_advance (Scan.trivia_le_length _)

/-- Where trivia have been skipped, none are left. -/
theorem trivia_skipTrivia (c : Cursor) : Scan.trivia c.skipTrivia.rest = 0 := by
  rw [skipTrivia, advance_rest, Scan.trivia_drop_trivia]

/-- Skipping trivia again changes nothing. -/
theorem skipTrivia_skipTrivia (c : Cursor) : c.skipTrivia.skipTrivia = c.skipTrivia := by
  rw [skipTrivia.eq_1 c.skipTrivia, skipTrivia.eq_1 c, advance_rest, Scan.trivia_drop_trivia,
    advance_zero]

/-- At the end of a line there are no trivia to skip. -/
theorem skipTrivia_of_atLineEnd {c : Cursor} (h : Scan.atLineEnd c.rest) : c.skipTrivia = c := by
  rw [skipTrivia, Scan.trivia_of_atLineEnd h, advance_zero]

end Cursor

/-- `d` is reached from `c` without leaving the statement. -/
structure Within (c d : Cursor) : Prop where
  /-- The way leads forward. -/
  le : c ≤ d
  /-- The way ends with the statement at the latest. -/
  le_end : d ≤ c.statementEnd

namespace Within

variable {c d e : Cursor} {n : Nat}

/-- Every place is in its own statement. -/
theorem refl (c : Cursor) : Within c c :=
  ⟨le_rfl, c.le_statementEnd⟩

/-- Moving over a part of the statement stays in it. -/
theorem advance (h : n ≤ Scan.statement c.rest) : Within c (c.advance n) :=
  ⟨Cursor.le_advance (h.trans (Scan.statement_le_length _)),
    Cursor.advance_le_advance h (Scan.statement_le_length _)⟩

/-- What stands on one line belongs to the statement. -/
theorem inline (h : Scan.Inline c.rest n) : Within c (c.advance n) :=
  advance h.le_statement

/-- Skipping trivia does not leave the statement. -/
theorem skipTrivia (c : Cursor) : Within c c.skipTrivia :=
  advance (Scan.trivia_le_statement _)

/-- The next character belongs to the statement unless it ends the line. -/
theorem next (h : Scan.atLineEnd c.rest = false) : Within c (c.advance 1) := by
  refine advance ?_
  rcases hrest : c.rest with _ | ⟨x, rest⟩
  · simp [hrest, Scan.atLineEnd] at h
  · exact Scan.statement_pos (by simpa [hrest, Scan.atLineEnd] using h)

/-- What is reached within a statement is some characters further on, none of them behind its
end. -/
theorem exists_advance (h : Within c d) :
    ∃ n, n ≤ Scan.statement c.rest ∧ d = c.advance n := by
  obtain ⟨n, hn, rfl⟩ := Cursor.le_iff_exists_advance.mp h.le
  refine ⟨n, ?_, rfl⟩
  by_contra hlt
  have hle := h.le_end
  have hlt' : c.statementEnd < c.advance n := by
    rw [Cursor.statementEnd, ← Nat.add_sub_of_le (Nat.le_of_not_le hlt),
      ← Cursor.advance_advance]
    refine Cursor.lt_advance (by omega) ?_
    rw [Cursor.advance_rest, List.length_drop]
    omega
  exact absurd (hlt'.trans_le hle) (lt_irrefl _)

/-- From a place inside a statement, the statement does not reach further. -/
theorem statementEnd_le (h : Within c d) : d.statementEnd ≤ c.statementEnd := by
  obtain ⟨n, hn, rfl⟩ := h.exists_advance
  rw [Cursor.statementEnd, Cursor.advance_rest, Cursor.advance_advance]
  exact Cursor.advance_le_advance (Scan.add_statement_drop_le hn) (Scan.statement_le_length _)

/-- Ways within a statement can be put together. -/
theorem trans (h : Within c d) (h' : Within d e) : Within c e :=
  ⟨h.le.trans h'.le, h'.le_end.trans h.statementEnd_le⟩

end Within

/-- A piece of a tree stands between two places of a statement, and its span says so. -/
structure Placed (c : Cursor) (span : Span) (d : Cursor) : Prop where
  /-- The piece is not empty. -/
  lt : c < d
  /-- It does not leave the statement. -/
  within : Within c d
  /-- Its span goes from the one place to the other. -/
  span_eq : span = c.spanTo d

namespace Placed

variable {c d : Cursor} {span : Span} {n : Nat}

/-- A piece of a tree ends at or behind the place where it stands. -/
theorem le (h : Placed c span d) : c ≤ d :=
  h.lt.le

/-- Characters on one line are a place in their statement. -/
theorem inline (hpos : 0 < n) (h : Scan.Inline c.rest n) :
    Placed c (c.spanTo (c.advance n)) (c.advance n) :=
  ⟨Cursor.lt_advance hpos h.le_length, .inline h, rfl⟩

end Placed

/-! ### Errors and logs -/

/-- The span of the error stands between two places from `c` on. -/
def ParseError.From (c : Cursor) (error : ParseError) : Prop :=
  ∃ a b, c ≤ a ∧ a ≤ b ∧ error.span = a.spanTo b

/-- An error from a later place on is one from an earlier place on. -/
theorem ParseError.From.mono {c d : Cursor} {error : ParseError} (h : error.From d)
    (hcd : c ≤ d) : error.From c := by
  obtain ⟨a, b, hda, hab, hspan⟩ := h
  exact ⟨a, b, hcd.trans hda, hab, hspan⟩

/-- The error that an event reports, if it reports one. -/
def Event.error? : Event → Option ParseError
  | .recovered error _ => some error
  | .skippedStatement error _ => some error
  | .started _ _ | .neverInterpolated _ | .statement _ _ | .finished _ _ => none

/-- The first error that a log reports. -/
def firstError? (log : List Event) : Option ParseError :=
  log.findSome? Event.error?

/-- The first error of two logs is that of the first one, if it has any. -/
theorem firstError?_append (log log' : List Event) :
    firstError? (log ++ log') = (firstError? log).or (firstError? log') := by
  simp [firstError?, List.findSome?_append]

/-- A log with an error reports it first, whatever follows. -/
theorem firstError?_append_of_some {log : List Event} {error : ParseError}
    (h : firstError? log = some error) (log' : List Event) :
    firstError? (log ++ log') = some error := by
  rw [firstError?_append, h, Option.or]

/-- If the first log reports no error, the first error is that of the second one. -/
theorem firstError?_append_of_none {log : List Event} (h : firstError? log = none)
    (log' : List Event) : firstError? (log ++ log') = firstError? log' := by
  rw [firstError?_append, h, Option.or]

namespace Outcome

variable {α β : Type}

/-- The events of a run. -/
def log : Outcome α → List Event
  | .done _ log _ => log
  | .failed _ log => log
  | .broken _ => []

/-- Nothing logged before changes nothing. -/
@[simp] theorem after_nil (outcome : Outcome α) : outcome.after [] = outcome := by
  cases outcome <;> rfl

/-- A success after earlier events logs these first. -/
@[simp] theorem after_done (earlier : List Event) (value : α) (log : List Event) (next : Cursor) :
    (Outcome.done value log next).after earlier = .done value (earlier ++ log) next := rfl

/-- So does a failure. -/
@[simp] theorem after_failed (earlier : List Event) (error : ParseError) (log : List Event) :
    (Outcome.failed error log : Outcome α).after earlier = .failed error (earlier ++ log) := rfl

/-- After a success the next parser runs from where it ended. -/
@[simp] theorem andThen_done (value : α) (log : List Event) (next : Cursor)
    (f : α → Cursor → Outcome β) :
    (Outcome.done value log next).andThen f = (f value next).after log := rfl

/-- After a failure nothing else runs. -/
@[simp] theorem andThen_failed (error : ParseError) (log : List Event)
    (f : α → Cursor → Outcome β) :
    (Outcome.failed error log : Outcome α).andThen f = .failed error log := rfl

/-- A sequence succeeds if both its parts do. -/
theorem andThen_eq_done {outcome : Outcome α} {f : α → Cursor → Outcome β} {value : β}
    {log : List Event} {next : Cursor} (h : outcome.andThen f = .done value log next) :
    ∃ first earlier middle later, outcome = .done first earlier middle ∧
      f first middle = .done value later next ∧ log = earlier ++ later := by
  cases outcome with
  | done first earlier middle =>
      rw [andThen_done] at h
      cases hsecond : f first middle with
      | done value' later next' =>
          rw [hsecond, after_done] at h
          cases h
          exact ⟨first, earlier, middle, later, rfl, hsecond, rfl⟩
      | failed error later => simp [hsecond] at h
      | broken fault => simp [hsecond, Outcome.after] at h
  | failed error earlier => simp at h
  | broken fault => cases h

/-! ### One run -/

/-- No promise is broken, an error has a span from `origin` on, and a success meets `post`. -/
inductive Sound (origin : Cursor) (post : α → Cursor → Prop) : Outcome α → Prop
  /-- A success. -/
  | done {value : α} {log : List Event} {next : Cursor} :
      post value next → Sound origin post (.done value log next)
  /-- A failure. -/
  | failed {error : ParseError} {log : List Event} :
      error.From origin → Sound origin post (.failed error log)

namespace Sound

variable {origin origin' : Cursor} {post post' : α → Cursor → Prop} {outcome : Outcome α}

/-- A sound outcome is sound for earlier places and weaker conditions. -/
theorem mono (h : outcome.Sound origin post) (horigin : origin' ≤ origin)
    (hpost : ∀ value next, post value next → post' value next) :
    outcome.Sound origin' post' := by
  cases h with
  | done hvalue => exact .done (hpost _ _ hvalue)
  | failed herror => exact .failed (herror.mono horigin)

/-- A sound outcome stays sound when events come before it. -/
theorem after (h : outcome.Sound origin post) (log : List Event) :
    (outcome.after log).Sound origin post := by
  cases h with
  | done hvalue => exact .done hvalue
  | failed herror => exact .failed herror

/-- A sound outcome after earlier events has a log that starts with them. -/
theorem log_after (h : outcome.Sound origin post) (earlier : List Event) :
    (outcome.after earlier).log = earlier ++ outcome.log := by
  cases h <;> rfl

end Sound

/-! ### The runs of both modes -/

/-- The outcomes of the strict and of the tolerant run: the same, or the strict run stopped at
the first error that the tolerant run logged. -/
inductive Lockstep (origin : Cursor) (post : α → Cursor → Prop) : Outcome α → Outcome α → Prop
  /-- Both runs succeed, without an error on the way. -/
  | done {value : α} {log : List Event} {next : Cursor} :
      firstError? log = none → post value next →
      Lockstep origin post (.done value log next) (.done value log next)
  /-- Both runs fail with the first error on the way. -/
  | failed {error : ParseError} {log : List Event} :
      firstError? log = none → error.From origin →
      Lockstep origin post (.failed error log) (.failed error log)
  /-- The tolerant run went on after the first error. -/
  | recovered {error : ParseError} {log : List Event} {tolerant : Outcome α} :
      error.From origin → firstError? tolerant.log = some error →
      tolerant.Sound origin post → Lockstep origin post (.failed error log) tolerant

namespace Lockstep

variable {origin origin' : Cursor} {post post' : α → Cursor → Prop}
  {strict tolerant : Outcome α}

/-- In lockstep the strict run is sound. -/
theorem sound_strict (h : Lockstep origin post strict tolerant) : strict.Sound origin post := by
  cases h with
  | done _ hvalue => exact .done hvalue
  | failed _ herror => exact .failed herror
  | recovered herror => exact .failed herror

/-- In lockstep the tolerant run is sound. -/
theorem sound_tolerant (h : Lockstep origin post strict tolerant) :
    tolerant.Sound origin post := by
  cases h with
  | done _ hvalue => exact .done hvalue
  | failed _ herror => exact .failed herror
  | recovered _ _ hsound => exact hsound

/-- Lockstep holds for earlier places and weaker conditions too. -/
theorem mono (h : Lockstep origin post strict tolerant) (horigin : origin' ≤ origin)
    (hpost : ∀ value next, post value next → post' value next) :
    Lockstep origin' post' strict tolerant := by
  cases h with
  | done hlog hvalue => exact .done hlog (hpost _ _ hvalue)
  | failed hlog herror => exact .failed hlog (herror.mono horigin)
  | recovered herror hlog hsound =>
      exact .recovered (herror.mono horigin) hlog (hsound.mono horigin hpost)

/-- What both runs logged before, without an error, changes nothing. -/
theorem after {earlier : List Event} (h : Lockstep origin post strict tolerant)
    (hearlier : firstError? earlier = none) :
    Lockstep origin post (strict.after earlier) (tolerant.after earlier) := by
  cases h with
  | done hlog hvalue =>
      exact .done (by rw [firstError?_append_of_none hearlier, hlog]) hvalue
  | failed hlog herror =>
      exact .failed (by rw [firstError?_append_of_none hearlier, hlog]) herror
  | recovered herror hlog hsound =>
      refine .recovered herror ?_ (hsound.after earlier)
      rw [hsound.log_after, firstError?_append_of_none hearlier, hlog]

/-- The rule for going on after a success. -/
theorem andThen {post : β → Cursor → Prop} {mid : α → Cursor → Prop}
    {f g : α → Cursor → Outcome β} (h : Lockstep origin mid strict tolerant)
    (hnext : ∀ value next, mid value next → Lockstep origin post (f value next) (g value next)) :
    Lockstep origin post (strict.andThen f) (tolerant.andThen g) := by
  cases h with
  | done hlog hvalue => exact (hnext _ _ hvalue).after hlog
  | failed hlog herror => exact .failed hlog herror
  | recovered herror hlog hsound =>
      cases hsound with
      | done hvalue =>
          have hsound := (hnext _ _ hvalue).sound_tolerant
          refine .recovered herror ?_ (hsound.after _)
          rw [andThen_done, hsound.log_after]
          exact firstError?_append_of_some hlog _
      | failed herror' => exact .recovered herror hlog (.failed herror')

end Lockstep

end Outcome

/-! ### The steps of a parser -/

namespace Parser

variable {α β : Type} {s : Settings} {c d origin : Cursor} {n : Nat}

/-- One parser after the other, as an outcome after the other. -/
theorem bind_run (p : Parser α) (f : α → Parser β) (s : Settings) (c : Cursor) :
    (p >>= f) s c = (p s c).andThen fun value next => f value s next := rfl

/-- Mapping is running and then returning. -/
theorem map_eq_bind (f : α → β) (p : Parser α) : f <$> p = p >>= fun a => Pure.pure (f a) := rfl

/-- After a parser that is certain to succeed without logging, the next one runs where it
stopped. -/
theorem bind_done {p : Parser α} {f : α → Parser β} {value : α}
    (h : p s c = .done value [] d) : (p >>= f) s c = f value s d := by
  rw [bind_run, h, Outcome.andThen_done, Outcome.after_nil]

/-- What follows a parser that fails is not run. -/
theorem bind_failed {p : Parser α} {f : α → Parser β} {error : ParseError} {log : List Event}
    (h : p s c = .failed error log) : (p >>= f) s c = .failed error log := by
  rw [bind_run, h, Outcome.andThen_failed]

/-- Returning a value moves nothing and logs nothing. -/
theorem pure_run (value : α) : (Pure.pure value : Parser α) s c = .done value [] c := rfl

/-- Wrapping a value can be left to the parser that uses it. -/
theorem map_bind {γ : Type} (g : α → β) (p : Parser α) (f : β → Parser γ) :
    (g <$> p >>= f) = p >>= fun a => f (g a) := by
  funext s c
  rw [map_eq_bind, bind_run, bind_run, bind_run]
  cases p s c with
  | done value log next =>
      simp only [Outcome.andThen_done, pure_run, Outcome.after_done, List.append_nil]
  | failed error log => rfl
  | broken fault => rfl

/-- Both ways to write a return are one. -/
theorem pure_eq (value : α) : Parser.pure value = Pure.pure value := rfl

/-- Asking for the place gives the place. -/
theorem here_run : here s c = .done c [] c := rfl

/-- Asking for the settings gives the settings. -/
theorem settings_run : settings s c = .done s [] c := rfl

/-- Logging an event logs this event only. -/
theorem log_run (event : Event) : log event s c = .done () [event] c := rfl

/-- Taking characters goes forward by them. -/
theorem take_run (h : n ≤ c.rest.length) : take n s c = .done () [] (c.advance n) := by
  rw [take, bind_done here_run, Cursor.advance?_eq_some h]
  rfl

/-- Skipping trivia goes to the end of the trivia. -/
theorem skipTrivia_run : skipTrivia s c = .done () [] c.skipTrivia := by
  rw [skipTrivia, bind_done here_run, take_run (Scan.trivia_le_length _)]
  rfl

/-- Going to the offset of a later place goes to this place. -/
theorem goTo_run (h : c ≤ d) : goTo d.offset s c = .done () [] d := by
  rw [goTo, bind_done here_run, Cursor.at?_offset h]
  rfl

/-- A span between ordered offsets is made without a fault. -/
theorem span_run {a b : Nat} (h : a ≤ b) : span a b s c = .done ⟨a, b⟩ [] c := by
  simp only [span, Span.between, h, if_true]
  rfl

/-- A span from an earlier place ends here. -/
theorem spanFrom_run (h : d ≤ c) : spanFrom d.offset s c = .done (d.spanTo c) [] c := by
  rw [spanFrom, bind_done here_run, span_run (Cursor.offset_le_of_le h)]
  rfl

/-- The characters between two counts of characters from `c`. -/
theorem slice_run {a m : Nat} (ha : a = (c.advance m).offset) (hmn : m ≤ n)
    (hn : n ≤ c.rest.length) :
    slice c a (c.advance n).offset s d = .done ((c.rest.drop m).take (n - m)) [] d := by
  rw [slice, ha, Cursor.slice?_advance hmn hn]
  rfl

/-- The text between two places ahead is cut out without a fault. -/
theorem sliceText_run {a m : Nat} (ha : a = (c.advance m).offset) (hmn : m ≤ n)
    (hn : n ≤ c.rest.length) :
    sliceText c a (c.advance n).offset s d = .done (c.textBetween m n) [] d := by
  rw [sliceText, bind_done (slice_run ha hmn hn)]
  rfl

/-- Going back by bytes that are there breaks no promise. -/
theorem offsetBefore_run {a : Nat} (h : n ≤ a) :
    trust (offsetBefore a n) s c = .done (a - n) [] c := by
  simp only [offsetBefore, h, if_true]
  rfl

/-- Failing between ordered offsets fails with this span. -/
theorem failAt_run {cause : Cause} {a b : Nat} (h : a ≤ b) :
    (failAt cause a b : Parser α) s c = .failed ⟨cause, ⟨a, b⟩⟩ [] := by
  rw [failAt, bind_done (span_run h)]
  rfl

/-- A recognizer that finds something leaves the place as it is. -/
theorem scan_run {recognizer : List Char → Except Scan.Error α} {found : α}
    (h : recognizer c.rest = .ok found) : scan recognizer s c = .done found [] c := by
  rw [scan, bind_done here_run, h]
  rfl

/-- A recognizer that finds an error fails with it, at the place. -/
theorem scan_failed {recognizer : List Char → Except Scan.Error α} {error : Scan.Error}
    (h : recognizer c.rest = .error error) : scan recognizer s c = .failed (error.at c) [] := by
  rw [scan, bind_done here_run, h]
  rfl

/-! ### Both modes -/

/-- `p` at `c` does the same in both modes up to the first error: it breaks no promise, its
errors have spans from `origin` on, and its successes meet `post`. -/
def Reads (limit : Nat) (origin c : Cursor) (p : Parser α) (post : α → Cursor → Prop) : Prop :=
  Outcome.Lockstep origin post (p ⟨limit, .strict⟩ c) (p ⟨limit, .tolerant⟩ c)

variable {limit : Nat} {p : Parser α} {f : α → Parser β} {post post' : α → Cursor → Prop}

namespace Reads

/-- A success that is the same in both modes. -/
theorem of_done {value : α} (h : ∀ mode, p ⟨limit, mode⟩ c = .done value [] d)
    (hpost : post value d) : Reads limit origin c p post := by
  rw [Reads, h, h]
  exact .done rfl hpost

/-- A failure that is the same in both modes. -/
theorem of_failed {error : ParseError} (h : ∀ mode, p ⟨limit, mode⟩ c = .failed error [])
    (herror : error.From origin) : Reads limit origin c p post := by
  rw [Reads, h, h]
  exact .failed rfl herror

/-- Returning a value that meets the condition. -/
theorem pure {value : α} (h : post value c) : Reads limit origin c (Pure.pure value) post :=
  of_done (fun _ => pure_run value) h

/-- Failing with an error from the origin on. -/
theorem fail {error : ParseError} (h : error.From origin) :
    Reads limit origin c (Parser.fail error) post :=
  of_failed (fun _ => rfl) h

/-- Failing at two places of the text. -/
theorem failAt {cause : Cause} {i j : Nat} {a b : Cursor} (ha : origin ≤ a) (hab : a ≤ b)
    (hi : i = a.offset) (hj : j = b.offset) :
    Reads limit origin c (Parser.failAt cause i j) post := by
  subst hi hj
  exact of_failed (fun _ => failAt_run (Cursor.offset_le_of_le hab)) ⟨a, b, ha, hab, rfl⟩

/-- A parser that reads from a later origin reads from an earlier one, and meets a weaker
condition. -/
theorem mono {origin' : Cursor} (h : Reads limit origin c p post) (horigin : origin' ≤ origin)
    (hpost : ∀ value next, post value next → post' value next) :
    Reads limit origin' c p post' :=
  Outcome.Lockstep.mono h horigin hpost

/-- A parser that reads from where it stands reads from any place before it. -/
theorem weaken (h : Reads limit d d p post) (horigin : origin ≤ d) :
    Reads limit origin d p post :=
  h.mono horigin fun _ _ h => h

/-- The rule for one parser after another. -/
theorem bind {mid : α → Cursor → Prop} {post : β → Cursor → Prop}
    (hp : Reads limit origin c p mid)
    (hf : ∀ value next, mid value next → Reads limit origin next (f value) post) :
    Reads limit origin c (p >>= f) post :=
  Outcome.Lockstep.andThen hp hf

/-- What a success gives in either mode. -/
theorem returns {mode : Mode} {value : α} {log : List Event} (h : Reads limit origin c p post)
    (hrun : p ⟨limit, mode⟩ c = .done value log d) : post value d := by
  have hsound : (p ⟨limit, mode⟩ c).Sound origin post := by
    cases mode with
    | strict => exact h.sound_strict
    | tolerant => exact h.sound_tolerant
  rw [hrun] at hsound
  cases hsound with
  | done hvalue => exact hvalue

/-- The rule for a parser whose value is wrapped. -/
theorem map {g : α → β} {post : β → Cursor → Prop}
    (hp : Reads limit origin c p fun value next => post (g value) next) :
    Reads limit origin c (g <$> p) post :=
  hp.bind fun _ _ h => pure h

end Reads

/-- What follows a parser that is certain to succeed. -/
theorem reads_bind_iff {value : α} {post : β → Cursor → Prop}
    (h : ∀ mode, p ⟨limit, mode⟩ c = .done value [] d) :
    Reads limit origin c (p >>= f) post ↔ Reads limit origin d (f value) post := by
  rw [Reads, bind_done (h _), bind_done (h _), Reads]

/-- Returning a value and going on is going on with the value. -/
@[simp] theorem reads_pure_bind {value : α} {post : β → Cursor → Prop} :
    Reads limit origin c (Pure.pure value >>= f) post ↔ Reads limit origin c (f value) post :=
  reads_bind_iff fun _ => pure_run value

/-- Asking for the place and going on is going on with the place. -/
@[simp] theorem reads_here_bind {f : Cursor → Parser β} {post : β → Cursor → Prop} :
    Reads limit origin c (here >>= f) post ↔ Reads limit origin c (f c) post :=
  reads_bind_iff fun _ => here_run

/-- Skipping trivia and going on is going on behind them. -/
@[simp] theorem reads_skipTrivia_bind {f : Unit → Parser β} {post : β → Cursor → Prop} :
    Reads limit origin c (skipTrivia >>= f) post ↔ Reads limit origin c.skipTrivia (f ()) post :=
  reads_bind_iff fun _ => skipTrivia_run

/-- Moving and going on is going on from there. -/
@[simp] theorem reads_moveTo_bind {f : Unit → Parser β} {post : β → Cursor → Prop} :
    Reads limit origin c (moveTo d >>= f) post ↔ Reads limit origin d (f ()) post :=
  reads_bind_iff fun _ => rfl

/-- Logging what is no error. -/
theorem reads_log_bind {event : Event} {f : Unit → Parser β} {post : β → Cursor → Prop}
    (h : event.error? = none) (hf : Reads limit origin c (f ()) post) :
    Reads limit origin c (log event >>= f) post := by
  rw [Reads, bind_run, bind_run, log_run, log_run]
  refine Outcome.Lockstep.after hf ?_
  rw [firstError?, List.findSome?_cons, h]
  rfl

/-- Taking characters and going on is going on behind them. -/
theorem reads_take_bind {f : Unit → Parser β} {post : β → Cursor → Prop}
    (h : n ≤ c.rest.length) :
    Reads limit origin c (take n >>= f) post ↔ Reads limit origin (c.advance n) (f ()) post :=
  reads_bind_iff fun _ => take_run h

/-- Making a span and going on is going on with the span. -/
theorem reads_spanFrom_bind {f : Span → Parser β} {post : β → Cursor → Prop} (h : d ≤ c) :
    Reads limit origin c (spanFrom d.offset >>= f) post ↔
      Reads limit origin c (f (d.spanTo c)) post :=
  reads_bind_iff fun _ => spanFrom_run h

end Parser

end Mcfunction
