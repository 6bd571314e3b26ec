import Mcfunction.Proofs.Bracketed.Container
import Mcfunction.Proofs.Gaps.Command
import Mcfunction.Proofs.Parser.Plain
import Mcfunction.Proofs.Placeholders.Told
import Mcfunction.Proofs.TooDeep.Skip

/-!
# Runs with Fewer Levels

A strict parse that succeeds and a tolerant one with fewer levels go side by side as long as
recovery skips whole what nests too deep: both stop at the same places, and the tolerant one tells
of nothing but nesting.

`Parser.Spares many limit ending good c p q` says this of the strict run of `p` and the tolerant run
of `q` at `c`, if what `p` gives is `good`. How the tolerant run may end is up to the `ending`: a
container stops where the strict run does, while an argument may stop elsewhere or fail.

## Main results

* `Outcome.Spared.orPlaceholder`: errors that become placeholders.
* `Parser.Spares.bind`, `Parser.Spares.bind_quiet`: one parser after another.
-/

namespace Mcfunction

variable {α β : Type} {many limit : Nat} {c d : Cursor}

/-- All errors that the log tells of are that something nests too deep. -/
def OnlyTooDeep (limit : Nat) (log : List Event) : Prop :=
  ∀ error ∈ errorsOf log, error.cause = .nestingTooDeep limit

namespace OnlyTooDeep

variable {log log' : List Event}

/-- A log without errors tells of nothing else. -/
theorem of_errorsOf_nil (h : errorsOf log = []) : OnlyTooDeep limit log := by
  rw [OnlyTooDeep, h]
  exact List.forall_mem_nil _

theorem nil : OnlyTooDeep limit [] :=
  of_errorsOf_nil rfl

/-- Two logs tell of nothing else if neither does. -/
theorem append (h : OnlyTooDeep limit log) (h' : OnlyTooDeep limit log') :
    OnlyTooDeep limit (log ++ log') := by
  rw [OnlyTooDeep, errorsOf_append]
  exact List.forall_mem_append.mpr ⟨h, h'⟩

/-- A recovery from nesting too deep tells of nothing else. -/
theorem recovered {error : ParseError} (h : error.cause = .nestingTooDeep limit) (skipped : Span) :
    OnlyTooDeep limit [.recovered error skipped] :=
  List.forall_mem_singleton.mpr h

end OnlyTooDeep

/-- How a tolerant run may end, compared with the place where a strict one stops. -/
structure Ending where
  /-- A place where it may stop instead. -/
  stops : Cursor → Cursor → Prop
  /-- An error with which it may fail. -/
  fails : Cursor → ParseError → Prop

/-- At the same place. -/
def Ending.same : Ending :=
  ⟨fun next d => next = d, fun _ _ => False⟩

/-- At the same place, or because a container at `c` that ends there may not stand. -/
def Ending.boxed (c : Cursor) : Ending :=
  ⟨fun next d => next = d, fun d error => Boxed c d ∧ error.span = ⟨c.offset, c.charEnd⟩⟩

/-- The run ends in such a way, compared with `d`, and tells of nothing but nesting. That it breaks
no promise is not said here. -/
inductive Outcome.Spared (limit : Nat) (ending : Ending) (d : Cursor) : Outcome α → Prop
  /-- A success. -/
  | done {value : α} {log : List Event} {next : Cursor} : OnlyTooDeep limit log →
      ending.stops next d → Outcome.Spared limit ending d (.done value log next)
  /-- A failure. -/
  | failed {error : ParseError} {log : List Event} : OnlyTooDeep limit log →
      error.cause = .nestingTooDeep limit → ending.fails d error →
      Outcome.Spared limit ending d (.failed error log)
  /-- A broken promise. -/
  | broken {fault : Fault} : Outcome.Spared limit ending d (.broken fault)

/-- Recovery from a container that nests too deep, with nothing but what passes in front of it, ends
right behind it. -/
theorem Parser.skipEnd_of_boxed {start : Cursor} {cause : Cause} (hpass : Passes [] start c)
    (h : Boxed c d) : skipEnd start ⟨cause, ⟨c.offset, c.charEnd⟩⟩ = d.offset := by
  obtain ⟨x, hpeek⟩ := h.exists_peek
  refine skipEnd_of_chunk ((hpass.le hpeek).trans_lt h.lt) ?_ h.charEnd_le
  obtain ⟨m, rfl, hm⟩ := hpass
  obtain ⟨n, rfl, hn⟩ := h.balancedChunk
  rw [hm, hn, Cursor.advance_advance]
  rfl

namespace Outcome.Spared

variable {ending ending' : Ending} {outcome : Outcome α}

/-- Events that came before may tell of nesting too. -/
theorem after {log : List Event} (h : outcome.Spared limit ending d)
    (hlog : OnlyTooDeep limit log) : (outcome.after log).Spared limit ending d := by
  cases h with
  | done hlog' hstops => exact .done (hlog.append hlog') hstops
  | failed hlog' hcause hfails => exact .failed (hlog.append hlog') hcause hfails
  | broken => exact .broken

/-- The rule for an outcome and what is done with it. -/
theorem andThen {f : α → Cursor → Outcome β} (h : outcome.Spared limit ending c)
    (hfails : ∀ error, ending.fails c error → ending'.fails d error)
    (hf : ∀ value next, ending.stops next c → (f value next).Spared limit ending' d) :
    (outcome.andThen f).Spared limit ending' d := by
  cases h with
  | done hlog hstops => exact (hf _ _ hstops).after hlog
  | failed hlog hcause hfail => exact .failed hlog hcause (hfails _ hfail)
  | broken => exact .broken

/-- The rule for what is done with a failure. -/
theorem orElse {p : Parser α} {handler : ParseError → Parser α} {s : Settings} {origin : Cursor}
    (h : (p s origin).Spared limit ending d)
    (hstops : ∀ next, ending.stops next d → ending'.stops next d)
    (hhandler : ∀ error, error.cause = .nestingTooDeep limit → ending.fails d error →
      (handler error s origin).Spared limit ending' d) :
    (Parser.orElse p handler s origin).Spared limit ending' d := by
  rw [Parser.orElse]
  generalize p s origin = outcome at h
  cases h with
  | done hlog hstop => exact .done hlog (hstops _ hstop)
  | failed hlog hcause hfail => exact (hhandler _ hcause hfail).after hlog
  | broken => exact .broken

/-- The rule for a parser whose errors become placeholders: where a placeholder ends, the run stops
instead. -/
theorem orPlaceholder {p : Parser α} {placeholder : ErrorNode → α}
    (h : (p ⟨limit, .tolerant⟩ c).Spared limit ending d)
    (hstops : ∀ next, ending.stops next d → ending'.stops next d)
    (hfails : ∀ error, ending.fails d error →
      ∃ next, c ≤ next ∧ Parser.skipEnd c error = next.offset ∧ ending'.stops next d) :
    (Parser.orPlaceholder p placeholder ⟨limit, .tolerant⟩ c).Spared limit ending' d := by
  refine h.orElse hstops fun error hcause hfail => ?_
  obtain ⟨next, hle, hskip, hstop⟩ := hfails _ hfail
  simp only [Parser.bind_done Parser.settings_run]
  rw [Parser.bind_run, Parser.recover_run hle hskip]
  exact .after (.done .nil hstop) (.recovered hcause _)

/-- A container that may become a placeholder. -/
theorem container {p : Parser α} {placeholder : ErrorNode → α}
    (h : (p ⟨limit, .tolerant⟩ c).Spared limit (.boxed c) d) :
    (Parser.orPlaceholder p placeholder ⟨limit, .tolerant⟩ c).Spared limit .same d := by
  refine h.orPlaceholder (fun _ h => h) ?_
  rintro ⟨cause, _⟩ ⟨hboxed, rfl⟩
  exact ⟨d, hboxed.lt.le, Parser.skipEnd_of_boxed (.refl [] c) hboxed, rfl⟩

end Outcome.Spared

namespace Parser

/-- `p` finds something out without moving and tells of no error, or a promise is broken. -/
def Quiet (p : Parser α) : Prop :=
  ∀ s c, (∃ value log, p s c = .done value log c ∧ errorsOf log = []) ∨
    ∃ fault, p s c = .broken fault

namespace Quiet

variable {p : Parser α} {f : α → Parser β}

/-- Two quiet parsers in a row are quiet. -/
theorem bind (hp : Quiet p) (hf : ∀ value, Quiet (f value)) : Quiet (p >>= f) := by
  intro s c
  rw [bind_run]
  rcases hp s c with ⟨value, log, hrun, hlog⟩ | ⟨fault, hrun⟩
  · rw [hrun, Outcome.andThen_done]
    rcases hf value s c with ⟨value', log', hrun', hlog'⟩ | ⟨fault, hrun'⟩
    · refine .inl ⟨value', log ++ log', by rw [hrun']; rfl, ?_⟩
      rw [errorsOf_append, hlog, hlog', List.append_nil]
    · exact .inr ⟨fault, by rw [hrun']; rfl⟩
  · exact .inr ⟨fault, by rw [hrun]; rfl⟩

theorem log {event : Event} (h : event.error? = none) : Quiet (log event) :=
  fun _ _ => .inl ⟨(), [event], rfl, errorsOf_cons_none [] h⟩

end Quiet

/-- Looking without moving is quiet. -/
theorem Still.quiet {p : Parser α} (h : Still p) : Quiet p := by
  intro s c
  rcases h c with ⟨value, hrun⟩ | ⟨fault, hrun⟩
  · exact .inl ⟨value, [], hrun s, rfl⟩
  · exact .inr ⟨fault, hrun s⟩

/-- If `p` succeeds at `c` in a strict parse and gives something good, then `q` in a tolerant parse
tells of nothing but nesting, and ends in such a way compared with the place where `p` stops. -/
def Spares (many limit : Nat) (ending : Ending) (good : α → Prop) (c : Cursor) (p q : Parser α) :
    Prop :=
  ∀ value log d, p ⟨many, .strict⟩ c = .done value log d → good value →
    (q ⟨limit, .tolerant⟩ c).Spared limit ending d

namespace Spares

variable {ending ending' : Ending} {good good' : α → Prop} {good'' : β → Prop} {p q : Parser α}
  {f g : α → Parser β}

theorem pure (value value' : α) :
    Spares many limit .same good c (Pure.pure value) (Pure.pure value') := by
  rintro _ _ _ ⟨⟩ _
  exact .done .nil rfl

/-- A plain parser does the same in both modes. -/
theorem of_plain (hp : Plain p) : Spares many limit .same good c p p := by
  intro value log d hrun _
  have hlog := hp.log_eq_nil ⟨many, .strict⟩ c
  rw [hp.uniform _ ⟨limit, .tolerant⟩ c] at hrun hlog
  rw [hrun] at hlog ⊢
  cases hlog
  exact .done .nil rfl

/-- An ending that allows more. -/
theorem weaken (hp : Spares many limit ending good c p q)
    (hstops : ∀ next d, ending.stops next d → ending'.stops next d)
    (hfails : ∀ d error, ending.fails d error → ending'.fails d error) :
    Spares many limit ending' good c p q := by
  intro value log d hrun hgood
  have hq := hp _ _ _ hrun hgood
  generalize q ⟨limit, .tolerant⟩ c = outcome at hq
  cases hq with
  | done hlog hstop => exact .done hlog (hstops _ _ hstop)
  | failed hlog hcause hfail => exact .failed hlog hcause (hfails _ _ hfail)
  | broken => exact .broken

/-- Another ending that allows the same place. -/
theorem of_same (hp : Spares many limit .same good c p q) (hstops : ∀ d, ending.stops d d) :
    Spares many limit ending good c p q := by
  refine hp.weaken ?_ fun _ _ h => h.elim
  rintro next _ rfl
  exact hstops next

/-- What is spared under a condition is spared under any that implies it. -/
theorem mono (hp : Spares many limit ending good' c p q) (h : ∀ value, good value → good' value) :
    Spares many limit ending good c p q :=
  fun value log d hrun hgood => hp value log d hrun (h value hgood)

/-- The rule for one parser after another: if the result is good, what it is made of is so. -/
theorem bind (hp : Spares many limit .same good c p q)
    (hgood : ∀ value, Returns (f value) fun result => good'' result → good value)
    (hf : ∀ value value' d, Spares many limit ending good'' d (f value) (g value')) :
    Spares many limit ending good'' c (p >>= f) (q >>= g) := by
  intro result log d hrun hresult
  obtain ⟨value, _, middle, _, hfirst, hsecond, -⟩ := Outcome.andThen_eq_done hrun
  refine (hp _ _ _ hfirst (hgood value _ _ _ _ _ hsecond hresult)).andThen
    (fun _ h => h.elim) ?_
  rintro value' _ rfl
  exact hf _ _ _ _ _ _ hsecond hresult

/-- What follows a parser that is certain to succeed. -/
theorem done_bind {p q : Parser α} {f g : α → Parser β} {value value' : α}
    (hp : p ⟨many, .strict⟩ c = .done value [] d) (hq : q ⟨limit, .tolerant⟩ c = .done value' [] d)
    (h : Spares many limit ending good'' d (f value) (g value')) :
    Spares many limit ending good'' c (p >>= f) (q >>= g) := by
  intro result log e hrun hresult
  rw [bind_done hp] at hrun
  rw [bind_done hq]
  exact h _ _ _ hrun hresult

theorem here_bind {f g : Cursor → Parser β} (h : Spares many limit ending good'' c (f c) (g c)) :
    Spares many limit ending good'' c (here >>= f) (here >>= g) :=
  .done_bind here_run here_run h

/-- What follows a plain parser. -/
theorem plain_bind (hp : Plain p)
    (hf : ∀ value d, Spares many limit ending good'' d (f value) (g value)) :
    Spares many limit ending good'' c (p >>= f) (p >>= g) := by
  intro result log d hrun hresult
  obtain ⟨value, earlier, middle, _, hfirst, -, -⟩ := Outcome.andThen_eq_done hrun
  obtain rfl : earlier = [] := by
    have hlog := hp.log_eq_nil ⟨many, .strict⟩ c
    rwa [hfirst] at hlog
  have hsame := (hp.uniform ⟨limit, .tolerant⟩ _ c).trans hfirst
  exact done_bind hfirst hsame (hf value middle) _ _ _ hrun hresult

/-- What follows a look around. -/
theorem still_bind (hp : Still p)
    (hf : ∀ value, Spares many limit ending good'' c (f value) (g value)) :
    Spares many limit ending good'' c (p >>= f) (p >>= g) := by
  rcases hp c with ⟨value, hrun⟩ | ⟨fault, hrun⟩
  · exact .done_bind (hrun _) (hrun _) (hf value)
  · intro result log d hfirst
    rw [bind_run, hrun] at hfirst
    cases hfirst

/-- What is quiet at the end changes nothing. -/
theorem bind_quiet (hp : Spares many limit ending good c p q)
    (hgood : ∀ value, Returns (f value) fun result => good'' result → good value)
    (hf : ∀ value, Quiet (f value)) (hg : ∀ value, Quiet (g value)) :
    Spares many limit ending good'' c (p >>= f) (q >>= g) := by
  intro result log d hrun hresult
  obtain ⟨value, _, middle, _, hfirst, hsecond, -⟩ := Outcome.andThen_eq_done hrun
  obtain rfl : middle = d := by
    rcases hf value ⟨many, .strict⟩ middle with ⟨_, _, hquiet, -⟩ | ⟨_, hquiet⟩
    · rw [hquiet] at hsecond
      exact (Outcome.done.inj hsecond).2.2
    · rw [hquiet] at hsecond
      cases hsecond
  refine (hp _ _ _ hfirst (hgood value _ _ _ _ _ hsecond hresult)).andThen (fun _ h => h)
    fun value' next hstop => ?_
  rcases hg value' ⟨limit, .tolerant⟩ next with ⟨_, _, hquiet, hnone⟩ | ⟨_, hquiet⟩
  · rw [hquiet]
    exact .done (.of_errorsOf_nil hnone) hstop
  · rw [hquiet]
    exact .broken

/-- What only looks at the end does not move. -/
theorem bind_still (hp : Spares many limit ending good c p q)
    (hgood : ∀ value, Returns (f value) fun result => good'' result → good value)
    (hf : ∀ value, Still (f value)) (hg : ∀ value, Still (g value)) :
    Spares many limit ending good'' c (p >>= f) (q >>= g) :=
  hp.bind_quiet hgood (fun value => (hf value).quiet) fun value => (hg value).quiet

/-- The rule for a parser whose value is wrapped. -/
theorem map {wrap : α → β}
    (hp : Spares many limit ending (fun value => good'' (wrap value)) c p q) :
    Spares many limit ending good'' c (wrap <$> p) (wrap <$> q) :=
  hp.bind_still (fun _ => .pure id) (fun _ => .pure _) fun _ => .pure _

/-- The rule for a container that may become a placeholder. -/
theorem container {placeholder : ErrorNode → α} (hp : Spares many limit (.boxed c) good c p q) :
    Spares many limit .same good c (orPlaceholder p placeholder) (orPlaceholder q placeholder) :=
  fun _ _ _ hrun hgood => (hp _ _ _ (orPlaceholder_eq_done rfl hrun) hgood).container

end Spares

end Parser

end Mcfunction
