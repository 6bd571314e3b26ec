import Mcfunction.Proofs.Parser.Recovery
import Mcfunction.Proofs.Placeholders.Nodes

/-!
# Placeholders Tell the Errors

Each placeholder of a tree tells of an error that was logged when it was put there. The converse
fails: when a container fails, the placeholders in it go with it, but the errors they told of stay
in the log. What holds is that some placeholder stands around the place of each logged error, at
the latest the one that takes the place of the container.

`Parser.Tells limit origin c p pending parts` says this of the tolerant run of `p` at `c`: the
placeholders of the result (`parts`) are the ones found before (`pending`) and those that tell the
errors of this run. If `p` fails, its error and those it logged start in the statement at `origin`,
so whoever puts a placeholder there covers all of them.

## Main results

* `Parser.Tells.bind`: the rule for one parser after another.
* `Parser.Tells.orPlaceholder`: the rule for a parser whose errors become placeholders.
-/

namespace Mcfunction

/-! ### The errors of a log -/

/-- The errors that a log reports, in order. -/
def errorsOf (log : List Event) : List ParseError :=
  log.filterMap Event.error?

@[simp] theorem errorsOf_nil : errorsOf [] = [] := rfl

/-- The errors of two logs are those of the first and those of the second. -/
@[simp] theorem errorsOf_append (log log' : List Event) :
    errorsOf (log ++ log') = errorsOf log ++ errorsOf log' :=
  List.filterMap_append

/-- An event without an error adds none. -/
theorem errorsOf_cons_none {event : Event} (log : List Event) (h : event.error? = none) :
    errorsOf (event :: log) = errorsOf log :=
  List.filterMap_cons_none h

/-- Placeholders that stand at places which `reach` allows tell the errors of a log. -/
structure Told (reach : Cursor → Prop) (nodes : List ErrorNode) (log : List Event) : Prop where
  /-- Each placeholder has the message of an error of its own, in order. -/
  messages : (nodes.map ErrorNode.message).Sublist ((errorsOf log).map ParseError.message)
  /-- Each error starts in the statement that is left where a placeholder starts. -/
  covered : ∀ error ∈ errorsOf log, ∃ node ∈ nodes, ∃ a,
    reach a ∧ node.span.start = a.offset ∧ error.StartsIn a

namespace Told

variable {reach reach' : Cursor → Prop} {nodes nodes' : List ErrorNode} {log log' : List Event}

/-- No errors, no placeholders. -/
theorem of_errorsOf_nil (h : errorsOf log = []) : Told reach [] log := by
  constructor
  · exact List.nil_sublist _
  · rw [h]
    exact List.forall_mem_nil _

/-- Two lists of placeholders tell the errors of two logs, one after the other. -/
theorem append (h : Told reach nodes log) (h' : Told reach nodes' log') :
    Told reach (nodes ++ nodes') (log ++ log') := by
  constructor
  · rw [errorsOf_append, List.map_append, List.map_append]
    exact h.messages.append h'.messages
  · rw [errorsOf_append]
    intro error herror
    rcases List.mem_append.mp herror with herror | herror
    · obtain ⟨node, hnode, hcovered⟩ := h.covered error herror
      exact ⟨node, List.mem_append_left _ hnode, hcovered⟩
    · obtain ⟨node, hnode, hcovered⟩ := h'.covered error herror
      exact ⟨node, List.mem_append_right _ hnode, hcovered⟩

/-- Placeholders stand at places that a wider condition allows too. -/
theorem mono (h : Told reach nodes log) (hreach : ∀ a, reach a → reach' a) :
    Told reach' nodes log := by
  refine ⟨h.messages, fun error herror => ?_⟩
  obtain ⟨node, hnode, a, ha, hcovered⟩ := h.covered error herror
  exact ⟨node, hnode, a, hreach a ha, hcovered⟩

/-- Errors that placeholders of a statement tell of start in that statement. -/
theorem startsIn {c : Cursor} (h : Told (Within c) nodes log) :
    ∀ error ∈ errorsOf log, error.StartsIn c := by
  intro error herror
  obtain ⟨_, _, a, ha, _, hstart⟩ := h.covered error herror
  exact hstart.mono ha

/-- One placeholder at the start of a statement tells all errors of it, if it has the message of
the last of them. -/
theorem last {c : Cursor} {node : ErrorNode} {event : Event} {error : ParseError}
    (hlog : ∀ error ∈ errorsOf log, error.StartsIn c) (herror : error.StartsIn c)
    (hevent : event.error? = some error) (hmessage : node.message = error.message)
    (hstart : node.span.start = c.offset) : Told (Within c) [node] (log ++ [event]) := by
  have hlast : errorsOf (log ++ [event]) = errorsOf log ++ [error] := by
    rw [errorsOf_append]
    congr 1
    exact List.filterMap_cons_some hevent
  constructor
  · rw [hlast, List.map_append, List.map_singleton, List.map_singleton, hmessage]
    exact List.sublist_append_right _ _
  · rw [hlast]
    intro error' herror'
    refine ⟨node, List.mem_singleton_self _, c, .refl c, hstart, ?_⟩
    rcases List.mem_append.mp herror' with hmem | hmem
    · exact hlog error' hmem
    · rwa [List.mem_singleton.mp hmem]

end Told

variable {α β : Type}

/-- The placeholders of the result are those in `pending` and those that tell the errors of the
log; without a result, all errors start in the statement at `origin`. -/
inductive Outcome.Tells (origin : Cursor) (pending : List ErrorNode)
    (parts : α → List ErrorNode) : Outcome α → Prop
  /-- A success. -/
  | done {value : α} {log : List Event} {next : Cursor} {nodes : List ErrorNode} :
      parts value = pending ++ nodes → Told (Within origin) nodes log →
      Outcome.Tells origin pending parts (.done value log next)
  /-- A failure. -/
  | failed {error : ParseError} {log : List Event} :
      error.StartsIn origin → (∀ error ∈ errorsOf log, error.StartsIn origin) →
      Outcome.Tells origin pending parts (.failed error log)
  /-- A broken promise. -/
  | broken {fault : Fault} : Outcome.Tells origin pending parts (.broken fault)

namespace Outcome.Tells

variable {origin c : Cursor} {pending nodes : List ErrorNode} {parts : α → List ErrorNode}
  {outcome : Outcome α} {log : List Event}

/-- What is told from a place on is told from any earlier place of the statement on. -/
theorem weaken (h : outcome.Tells c pending parts) (horigin : Within origin c) :
    outcome.Tells origin pending parts := by
  cases h with
  | done hparts htold => exact .done hparts (htold.mono fun _ => horigin.trans)
  | failed herror hlog =>
      exact .failed (herror.mono horigin) fun error h => (hlog error h).mono horigin
  | broken => exact .broken

/-- What was logged before joins the log, and the placeholders that tell of it are no longer
pending. -/
theorem after (h : outcome.Tells origin (pending ++ nodes) parts)
    (htold : Told (Within origin) nodes log) : (outcome.after log).Tells origin pending parts := by
  cases h with
  | @done value _ next _ hparts htold' =>
      exact .done (hparts.trans (List.append_assoc _ _ _)) (htold.append htold')
  | @failed error _ herror hlog =>
      refine .failed herror fun error' herror' => ?_
      rw [errorsOf_append] at herror'
      rcases List.mem_append.mp herror' with hmem | hmem
      · exact htold.startsIn error' hmem
      · exact hlog error' hmem
  | broken => exact .broken

end Outcome.Tells

namespace Parser

/-- The placeholders of the result of the tolerant run tell the errors of that run. -/
def Tells (limit : Nat) (origin c : Cursor) (p : Parser α) (pending : List ErrorNode)
    (parts : α → List ErrorNode) : Prop :=
  (p ⟨limit, .tolerant⟩ c).Tells origin pending parts

variable {limit : Nat} {origin c d : Cursor} {p : Parser α} {f : α → Parser β}
  {pending : List ErrorNode} {parts : α → List ErrorNode} {parts' : β → List ErrorNode}

namespace Tells

/-- A value tells of nothing but what is pending already. -/
theorem pure {value : α} (h : parts value = pending) :
    Tells limit origin c (Pure.pure value) pending parts :=
  .done (h.trans (List.append_nil _).symm) (.of_errorsOf_nil rfl)

/-- A failure is told by the placeholder that takes its place. -/
theorem fail {error : ParseError} (h : error.StartsIn origin) :
    Tells limit origin c (Parser.fail error) pending parts :=
  .failed h (List.forall_mem_nil _)

/-- Nothing is asked of a broken promise. -/
theorem breakOff {fault : Fault} : Tells limit origin c (Parser.breakOff fault) pending parts :=
  .broken

/-- What is told from a place on is told from any earlier place of the statement on. -/
theorem weaken (h : Tells limit c d p pending parts) (horigin : Within origin c) :
    Tells limit origin d p pending parts :=
  Outcome.Tells.weaken h horigin

/-- The rule for one parser after another. -/
theorem bind (hp : Tells limit origin c p [] parts)
    (hf : ∀ {value log d}, p ⟨limit, .tolerant⟩ c = .done value log d →
      Tells limit origin d (f value) (pending ++ parts value) parts') :
    Tells limit origin c (p >>= f) pending parts' := by
  unfold Tells at hp
  rw [Tells, bind_run]
  generalize hrun : p ⟨limit, .tolerant⟩ c = outcome at hp
  cases hp with
  | done hparts htold =>
      have hnext := hf hrun
      rw [hparts, List.nil_append] at hnext
      exact hnext.after htold
  | failed herror hlog => exact .failed herror hlog
  | broken => exact .broken

/-- A parser that logs nothing leaves what is pending to the next one. -/
theorem steady_bind {post : α → Cursor → Prop} (hp : Steady origin c p post)
    (hf : ∀ value d, post value d → Tells limit origin d (f value) pending parts') :
    Tells limit origin c (p >>= f) pending parts' := by
  obtain ⟨_, houtcome, hrun⟩ := hp
  cases houtcome with
  | done hvalue =>
      rw [Tells, bind_done (hrun _)]
      exact hf _ _ hvalue
  | failed herror =>
      rw [Tells, bind_failed (hrun _)]
      exact .failed herror (List.forall_mem_nil _)

/-- A parser that logs nothing and whose values hold no placeholders. -/
theorem of_steady {post : α → Cursor → Prop} (hp : Steady origin c p post)
    (h : ∀ value d, post value d → parts value = pending) :
    Tells limit origin c p pending parts := by
  obtain ⟨_, houtcome, hrun⟩ := hp
  rw [Tells, hrun]
  cases houtcome with
  | done hvalue =>
      exact .done ((h _ _ hvalue).trans (List.append_nil _).symm) (.of_errorsOf_nil rfl)
  | failed herror => exact .failed herror (List.forall_mem_nil _)

/-- A parser that never gives a value. -/
theorem stops (hp : Steady origin c p fun _ _ => False) : Tells limit origin c p pending parts :=
  of_steady hp fun _ _ h => h.elim

/-- Looking without moving. -/
theorem still_bind (hp : Still p)
    (hf : ∀ value, Tells limit origin c (f value) pending parts') :
    Tells limit origin c (p >>= f) pending parts' := by
  rw [Tells]
  rcases hp c with ⟨value, hrun⟩ | ⟨fault, hrun⟩
  · rw [bind_done (hrun _)]
    exact hf value
  · rw [bind_run, hrun]
    exact .broken

/-- Logging what is no error. -/
theorem log_bind {event : Event} {f : Unit → Parser β} (h : event.error? = none)
    (hf : Tells limit origin c (f ()) pending parts') :
    Tells limit origin c (log event >>= f) pending parts' := by
  have hnext : Tells limit origin c (f ()) (pending ++ []) parts' := by
    rw [List.append_nil]
    exact hf
  rw [Tells, bind_run, log_run, Outcome.andThen_done]
  exact hnext.after (.of_errorsOf_nil (errorsOf_cons_none [] h))

/-- The rule for a parser whose value is wrapped. -/
theorem map {g : α → β} (hp : Tells limit origin c p [] fun value => parts' (g value)) :
    Tells limit origin c (g <$> p) [] parts' :=
  hp.bind fun _ => .pure (List.nil_append _).symm

/-- The rule for a parser that goes on after an error with a placeholder: the placeholder covers
the errors of the whole run, and takes the place of the placeholders that tell of them. -/
theorem orElse {handler : ParseError → Parser α}
    (hhandler : ∀ error, error.StartsIn c → ∃ value event node d,
      handler error ⟨limit, .tolerant⟩ c = .done value [event] d ∧ event.error? = some error ∧
        node.message = error.message ∧ node.span.start = c.offset ∧ parts value = [node])
    (hp : Tells limit c c p [] parts) : Tells limit c c (orElse p handler) [] parts := by
  unfold Tells at hp ⊢
  rw [Parser.orElse]
  generalize p ⟨limit, .tolerant⟩ c = outcome at hp ⊢
  cases hp with
  | done hparts htold => exact .done hparts htold
  | failed herror hlog =>
      obtain ⟨value, event, node, d, hrun, hevent, hmessage, hstart, hparts⟩ := hhandler _ herror
      simp only [hrun, Outcome.after_done]
      exact .done hparts (.last hlog herror hevent hmessage hstart)
  | broken => exact .broken

/-- The rule for a parser whose errors become placeholders. -/
theorem orPlaceholder {placeholder : ErrorNode → α} (hline : Scan.atLineEnd c.rest = false)
    (hplaceholder : ∀ node, parts (placeholder node) = [node])
    (hp : Tells limit c c p [] parts) :
    Tells limit c c (orPlaceholder p placeholder) [] parts := by
  refine hp.orElse fun error herror => ?_
  obtain ⟨d, hlt, -, hstop⟩ := skipEnd_eq herror.toFrom hline
  refine ⟨placeholder ⟨error.message, c.spanTo d⟩, .recovered error (c.spanTo d),
    ⟨error.message, c.spanTo d⟩, d, ?_, rfl, rfl, rfl, hplaceholder _⟩
  rw [bind_done settings_run]
  dsimp only
  rw [bind_run, recover_run hlt.le hstop]
  rfl

end Tells

/-- What follows a parser that is certain to succeed. -/
theorem tells_bind_iff {value : α} (h : p ⟨limit, .tolerant⟩ c = .done value [] d) :
    Tells limit origin c (p >>= f) pending parts' ↔
      Tells limit origin d (f value) pending parts' := by
  rw [Tells, bind_done h, Tells]

@[simp] theorem tells_here_bind {f : Cursor → Parser β} :
    Tells limit origin c (here >>= f) pending parts' ↔
      Tells limit origin c (f c) pending parts' :=
  tells_bind_iff here_run

@[simp] theorem tells_skipTrivia_bind {f : Unit → Parser β} :
    Tells limit origin c (skipTrivia >>= f) pending parts' ↔
      Tells limit origin c.skipTrivia (f ()) pending parts' :=
  tells_bind_iff skipTrivia_run

@[simp] theorem tells_moveTo_bind {f : Unit → Parser β} :
    Tells limit origin c (moveTo d >>= f) pending parts' ↔
      Tells limit origin d (f ()) pending parts' :=
  tells_bind_iff rfl

theorem tells_take_bind {n : Nat} {f : Unit → Parser β} (h : n ≤ c.rest.length) :
    Tells limit origin c (take n >>= f) pending parts' ↔
      Tells limit origin (c.advance n) (f ()) pending parts' :=
  tells_bind_iff (take_run h)

end Parser

end Mcfunction
