import Mcfunction.Proofs.Parser.Plain

/-!
# Parses with Different Limits

What a parser with fewer levels does follows from what one with more levels does. As long as
nothing nests too deep, both do the same. A value that nests too deep for the smaller limit makes
the parser with that limit fail with the error about it.

`Parser.Limits cut wide narrow deep p q` compares the run of `p` under the settings `wide` with
that of `q` under the settings `narrow`: either both end alike, with a value that is not `deep`, or
`q` fails because something nests too deep, and `p` can only give a `deep` value. The second is
possible if `cut` holds, and then the parse is a strict one.

## Main results

* `Parser.Limits.bind`: the rule for one parser after another.
* `Parser.Limits.orElse`: the rule for a parser that may go on after an error.
-/

namespace Mcfunction

variable {α β : Type}

namespace Outcome

/-- If the outcome is a success, its value meets `property`. -/
def Gives (outcome : Outcome α) (property : α → Prop) : Prop :=
  ∀ value log next, outcome = .done value log next → property value

theorem Gives.after {outcome : Outcome α} {property : α → Prop} (h : outcome.Gives property)
    (earlier : List Event) : (outcome.after earlier).Gives property := by
  intro value log next hrun
  cases outcome with
  | done value' log' next' =>
      obtain ⟨rfl, -, -⟩ := Outcome.done.inj hrun
      exact h value' log' next' rfl
  | failed error log' => cases hrun
  | broken fault => cases hrun

theorem gives_failed {error : ParseError} {log : List Event} {property : α → Prop} :
    (Outcome.failed error log).Gives property := by
  rintro value log' next ⟨⟩

theorem gives_broken {fault : Fault} {property : α → Prop} :
    (Outcome.broken fault : Outcome α).Gives property := by
  rintro value log next ⟨⟩

/-- What comes of a parser with more levels, and what comes of it with fewer. -/
inductive Limited (cut : Prop) (limit : Nat) (deep : α → Prop) : Outcome α → Outcome α → Prop
  /-- Both do the same. -/
  | same {outcome : Outcome α} :
      outcome.Gives (fun value => ¬ deep value) → Limited cut limit deep outcome outcome
  /-- Something nests too deep for the smaller limit. -/
  | tooDeep {outcome : Outcome α} {error : ParseError} {log : List Event} :
      cut → error.cause = .nestingTooDeep limit → outcome.Gives deep →
      Limited cut limit deep outcome (.failed error log)

theorem Limited.after {cut : Prop} {limit : Nat} {deep : α → Prop} {outcome outcome' : Outcome α}
    (h : Limited cut limit deep outcome outcome') (earlier : List Event) :
    Limited cut limit deep (outcome.after earlier) (outcome'.after earlier) := by
  cases h with
  | same hgives => exact .same (hgives.after earlier)
  | tooDeep hcut hcause hgives => exact .tooDeep hcut hcause (hgives.after earlier)

end Outcome

/-- Two parses in one mode, which is strict if `cut` holds. -/
structure Settings.Compared (cut : Prop) (wide narrow : Settings) : Prop where
  /-- The modes are the same. -/
  mode : wide.mode = narrow.mode
  /-- If errors can differ, none of them is caught. -/
  strict : cut → narrow.mode = .strict

namespace Parser

/-- `p` under the settings `wide` and `q` under the settings `narrow` do the same, or `q` fails
because something nests too deep. -/
def Limits (cut : Prop) (wide narrow : Settings) (deep : α → Prop) (p q : Parser α) : Prop :=
  ∀ c, (p wide c).Limited cut narrow.limit deep (q narrow c)

namespace Limits

variable {cut : Prop} {wide narrow : Settings} {deep : α → Prop} {deep' : β → Prop}
  {p q : Parser α} {f g : α → Parser β}

/-- A plain parser whose values are not deep. -/
theorem of_plain (hp : Plain p) (hgives : Returns p fun value => ¬ deep value) :
    Limits cut wide narrow deep p p := by
  intro c
  rw [hp.uniform wide narrow c]
  exact .same (hgives narrow c)

theorem pure {value : α} (h : ¬ deep value) :
    Limits cut wide narrow deep (Pure.pure value) (Pure.pure value) :=
  .of_plain (.pure value) (.pure h)

theorem fail (error : ParseError) :
    Limits cut wide narrow deep (Parser.fail error) (Parser.fail error) :=
  .of_plain (.fail error) .fail

theorem failAt (cause : Cause) (start stop : Nat) :
    Limits cut wide narrow deep (Parser.failAt cause start stop) (Parser.failAt cause start stop) :=
  .of_plain (.failAt cause start stop) .failAt

theorem breakOff (fault : Fault) :
    Limits cut wide narrow deep (Parser.breakOff fault) (Parser.breakOff fault) :=
  fun _ => .same Outcome.gives_broken

theorem unexpected (wanted : Wanted) :
    Limits cut wide narrow deep (Parser.unexpected wanted) (Parser.unexpected wanted) :=
  .of_plain (plain_unexpected wanted) unexpected_returns

theorem of_iff {deep' : α → Prop} (hp : Limits cut wide narrow deep p q)
    (h : ∀ value, deep' value ↔ deep value) : Limits cut wide narrow deep' p q := by
  have hsame : deep' = deep := funext fun value => propext (h value)
  rw [hsame]
  exact hp

/-- With too few levels left, a parser fails before it reads anything. -/
theorem of_tooDeep (hcut : cut) (hgives : Returns p deep)
    (hq : ∀ c, ∃ error log, q narrow c = .failed error log ∧
      error.cause = .nestingTooDeep narrow.limit) : Limits cut wide narrow deep p q := by
  intro c
  obtain ⟨error, log, hrun, hcause⟩ := hq c
  rw [hrun]
  exact .tooDeep hcut hcause (hgives wide c)

/-- The rule for one parser after another: a value that is too deep makes the result so. -/
theorem bind (hp : Limits cut wide narrow deep p q)
    (hdeep : ∀ value, deep value → Returns (f value) deep')
    (hf : ∀ value, ¬ deep value → Limits cut wide narrow deep' (f value) (g value)) :
    Limits cut wide narrow deep' (p >>= f) (q >>= g) := by
  intro c
  have h := hp c
  rw [bind_run, bind_run]
  generalize p wide c = outcome at h ⊢
  generalize q narrow c = outcome' at h ⊢
  cases h with
  | same hgives =>
      cases outcome with
      | done value log next => exact (hf value (hgives _ _ _ rfl) next).after log
      | failed error log => exact .same Outcome.gives_failed
      | broken fault => exact .same Outcome.gives_broken
  | tooDeep hcut hcause hgives =>
      refine .tooDeep hcut hcause fun value log next hrun => ?_
      obtain ⟨first, _, middle, _, hfirst, hsecond, -⟩ := Outcome.andThen_eq_done hrun
      exact hdeep first (hgives _ _ _ hfirst) _ _ _ _ _ hsecond

/-- What follows a parser that ignores the settings. -/
theorem uniform_bind {p : Parser α} (hp : Uniform p)
    (hf : ∀ value, Limits cut wide narrow deep' (f value) (g value)) :
    Limits cut wide narrow deep' (p >>= f) (p >>= g) := by
  intro c
  rw [bind_run, bind_run, hp wide narrow c]
  cases p narrow c with
  | done value log next => exact (hf value next).after log
  | failed error log => exact .same Outcome.gives_failed
  | broken fault => exact .same Outcome.gives_broken

/-- What follows a plain parser. -/
theorem plain_bind {p : Parser α} (hp : Plain p)
    (hf : ∀ value, Limits cut wide narrow deep' (f value) (g value)) :
    Limits cut wide narrow deep' (p >>= f) (p >>= g) :=
  uniform_bind hp.uniform hf

/-- The rule for a parser whose value is wrapped. -/
theorem map {wrap : α → β} (hp : Limits cut wide narrow (fun value => deep' (wrap value)) p q) :
    Limits cut wide narrow deep' (wrap <$> p) (wrap <$> q) :=
  hp.bind (fun _ h => .pure h) fun _ h => .pure h

/-- The rule for a parser that may go on after an error, but not after one that is cut. -/
theorem orElse {handler : ParseError → Parser α}
    (hsame : ∀ error c, handler error wide c = handler error narrow c)
    (hgives : ∀ error c, (handler error narrow c).Gives fun value => ¬ deep value)
    (hcut : cut → ∀ error c, ∃ error', handler error narrow c = .failed error' [] ∧
      error'.cause = error.cause)
    (hp : Limits cut wide narrow deep p q) :
    Limits cut wide narrow deep (orElse p handler) (orElse q handler) := by
  intro c
  have h := hp c
  rw [Parser.orElse, Parser.orElse]
  generalize p wide c = outcome at h ⊢
  generalize q narrow c = outcome' at h ⊢
  cases h with
  | same hgives' =>
      cases outcome with
      | done value log next => exact .same hgives'
      | failed error log =>
          dsimp only
          rw [hsame error c]
          exact .same ((hgives error c).after log)
      | broken fault => exact .same hgives'
  | tooDeep hcut' hcause hgives' =>
      rename_i error log
      obtain ⟨error', hrun, hcause'⟩ := hcut hcut' error c
      simp only [hrun, Outcome.after_failed]
      refine .tooDeep hcut' (hcause'.trans hcause) ?_
      cases outcome with
      | done value log' next => exact hgives'
      | failed error'' log' =>
          obtain ⟨_, hrun', -⟩ := hcut hcut' error'' c
          simp only [hsame, hrun', Outcome.after_failed]
          exact Outcome.gives_failed
      | broken fault => exact hgives'

/-- The rule for a parser that goes on after an error in tolerant mode. -/
theorem orRecover {p q : Parser α} {recovery : ParseError → Parser α}
    (h : Settings.Compared cut wide narrow) (hrecovery : ∀ error, Uniform (recovery error))
    (hgives : ∀ error, Returns (recovery error) fun value => ¬ deep value)
    (hp : Limits cut wide narrow deep p q) :
    Limits cut wide narrow deep
      (Parser.orElse p fun error => do
        match (← settings).mode with
        | .strict => Parser.fail error
        | .tolerant => recovery error)
      (Parser.orElse q fun error => do
        match (← settings).mode with
        | .strict => Parser.fail error
        | .tolerant => recovery error) := by
  refine hp.orElse (fun error c => ?_) (fun error c => ?_) fun hcut error c => ?_
  · rw [bind_done settings_run, bind_done settings_run, h.mode]
    cases narrow.mode with
    | strict => rfl
    | tolerant => exact hrecovery error wide narrow c
  · rw [bind_done settings_run]
    cases narrow.mode with
    | strict => exact Outcome.gives_failed
    | tolerant => exact hgives error narrow c
  · rw [bind_done settings_run, h.strict hcut]
    exact ⟨error, rfl, rfl⟩

/-- The rule for a parser whose errors become placeholders. -/
theorem orPlaceholder {placeholder : ErrorNode → α} (h : Settings.Compared cut wide narrow)
    (hplaceholder : ∀ node, ¬ deep (placeholder node)) (hp : Limits cut wide narrow deep p q) :
    Limits cut wide narrow deep (orPlaceholder p placeholder) (orPlaceholder q placeholder) := by
  refine hp.orRecover h (fun error => ?_) fun error => ?_
  · exact .bind (uniform_recover error) fun _ => (Plain.pure _).uniform
  · exact .andThen fun node => .pure (hplaceholder node)

end Limits

end Parser

end Mcfunction
