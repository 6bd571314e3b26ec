import Mcfunction.Proofs.Parser.Plain

/-!
# What the Arguments Log

The one thing that happens below statements and is logged is that an error became a placeholder.
All other events are about statements, so what a log tells of those is not hidden among the events
of their arguments.

## Main results

* `Parser.Recovers.bind`, `Parser.Recovers.orPlaceholder`: the rules.
* `arguments_recovers`: arguments with any number of levels left.
-/

namespace Mcfunction

/-- Whether the event is a placeholder that was put in the place of an argument or a container. -/
def Event.isRecovery : Event → Bool
  | .recovered _ _ => true
  | .started _ _ | .skippedStatement _ _ | .neverInterpolated _ | .statement _ _
  | .finished _ _ => false

namespace Parser

variable {α β : Type} {p : Parser α} {f : α → Parser β}

/-- All events that `p` logs are recoveries. -/
def Recovers (p : Parser α) : Prop :=
  ∀ s c, ∀ event ∈ (p s c).log, event.isRecovery

/-- The events of an outcome after earlier ones. -/
theorem forall_mem_log_after {good : Event → Prop} {earlier : List Event} {outcome : Outcome α}
    (hearlier : ∀ event ∈ earlier, good event) (h : ∀ event ∈ outcome.log, good event) :
    ∀ event ∈ (outcome.after earlier).log, good event := by
  cases outcome with
  | done | failed => exact List.forall_mem_append.mpr ⟨hearlier, h⟩
  | broken => exact h

namespace Recovers

variable {s : Settings} {c d : Cursor} {value : α} {error : ParseError} {log : List Event}

/-- All that was logged on the way to a success is recoveries. -/
theorem of_done (hp : Recovers p) (hrun : p s c = .done value log d) :
    ∀ event ∈ log, event.isRecovery := by
  have hlog := hp s c
  rwa [hrun] at hlog

/-- All that was logged on the way to a failure is recoveries. -/
theorem of_failed (hp : Recovers p) (hrun : p s c = .failed error log) :
    ∀ event ∈ log, event.isRecovery := by
  have hlog := hp s c
  rwa [hrun] at hlog

/-- A plain parser logs nothing. -/
theorem of_plain (h : Plain p) : Recovers p := by
  intro s c
  rw [h.log_eq_nil]
  exact List.forall_mem_nil _

/-- The rule for one parser after another. -/
theorem bind (hp : Recovers p) (hf : ∀ value, Recovers (f value)) : Recovers (p >>= f) := by
  intro s c
  rw [bind_run]
  cases hrun : p s c with
  | done value log next => exact forall_mem_log_after (hp.of_done hrun) (hf value s next)
  | failed error log => exact hp.of_failed hrun
  | broken fault => exact List.forall_mem_nil _

/-- What follows a plain parser. -/
theorem plain_bind (hp : Plain p) (hf : ∀ value, Recovers (f value)) : Recovers (p >>= f) :=
  (of_plain hp).bind hf

/-- What a plain parser does with the value. -/
theorem bind_plain (hp : Recovers p) (hf : ∀ value, Plain (f value)) : Recovers (p >>= f) :=
  hp.bind fun value => of_plain (hf value)

/-- Mapping logs nothing. -/
theorem map {g : α → β} (hp : Recovers p) : Recovers (g <$> p) :=
  hp.bind_plain fun _ => .pure _

/-- Asking for the settings logs nothing. -/
theorem settings_bind {f : Settings → Parser β} (hf : ∀ settings, Recovers (f settings)) :
    Recovers (settings >>= f) := by
  intro s c
  rw [bind_done settings_run]
  exact hf s s c

/-- The rule for a parser whose errors another one takes care of. -/
theorem orElse {handler : ParseError → Parser α} (hp : Recovers p)
    (hhandler : ∀ error, Recovers (handler error)) : Recovers (orElse p handler) := by
  intro s c
  rw [Parser.orElse]
  cases hrun : p s c with
  | done value log next => exact hp.of_done hrun
  | failed error log => exact forall_mem_log_after (hp.of_failed hrun) (hhandler error s c)
  | broken fault => exact List.forall_mem_nil _

/-- Recovery logs itself. -/
theorem recover (error : ParseError) : Recovers (recover error) := by
  have hlog : ∀ skipped, Recovers (log (.recovered error skipped)) :=
    fun _ _ _ => List.forall_mem_singleton.mpr rfl
  exact plain_bind .here fun _ => plain_bind (.span _ _) fun _ => (hlog _).bind fun _ =>
    of_plain (.bind (.goTo _) fun _ => .pure _)

/-- The rule for a parser whose errors become placeholders. -/
theorem orPlaceholder {placeholder : ErrorNode → α} (hp : Recovers p) :
    Recovers (orPlaceholder p placeholder) := by
  refine hp.orElse fun error => .settings_bind fun s => ?_
  split
  · exact of_plain (.fail _)
  · exact (recover error).bind_plain fun _ => .pure _

end Recovers

/-! ### Containers -/

/-- A run clause that nests too deep logs nothing of its own. -/
theorem tooDeep_recovers (start : Cursor) : Recovers (tooDeep start : Parser α) :=
  .settings_bind fun _ => .of_plain (.failAt _ _ _)

/-- A container that nests too deep logs nothing of its own. -/
theorem containerTooDeep_recovers : Recovers (containerTooDeep : Parser α) :=
  .plain_bind .here fun _ => tooDeep_recovers _

/-- Elements log what they recover from. -/
theorem elements_recovers {element : Parser α} {bracket : Bracket} {opener : Cursor} {fuel : Nat}
    (helement : Recovers element) : Recovers (elements element bracket opener fuel) := by
  induction fuel with
  | zero => exact .of_plain (.breakOff _)
  | succ fuel ih =>
      refine helement.bind fun first => ?_
      refine .plain_bind (plain_separator bracket opener) fun closed => ?_
      split
      · exact .of_plain (.pure _)
      · exact ih.bind_plain fun _ => .pure _

section Values

variable {value : Parser NbtValue} (hvalue : Recovers value)

include hvalue

/-- A pair logs what its value recovers from. -/
theorem pair_recovers : Recovers (pair value) :=
  .plain_bind .here fun _ => .plain_bind plain_key fun _ => .plain_bind .skipTrivia fun _ =>
    .plain_bind plain_operator fun _ => .plain_bind .skipTrivia fun _ =>
      hvalue.bind_plain fun _ => .bind (.spanFrom _) fun _ => .pure _

/-- A list logs what its elements recover from. -/
theorem listOf_recovers : Recovers (listOf value) := by
  refine .plain_bind .here fun opener => .plain_bind (.take 1) fun _ =>
    .plain_bind .skipTrivia fun _ => .plain_bind .here fun content => ?_
  split
  · exact .of_plain (.bind (.take 1) fun _ => .bind (.spanFrom _) fun _ => .pure _)
  · refine .plain_bind (plain_expectContent _ _) fun _ => ?_
    dsimp only
    split
    · exact (elements_recovers (pair_recovers hvalue)).map.bind_plain fun _ =>
        .bind (.spanFrom _) fun _ => .pure _
    · exact (elements_recovers hvalue).map.bind_plain fun _ =>
        .bind (.spanFrom _) fun _ => .pure _

/-- A compound logs what its pairs recover from. -/
theorem compoundOf_recovers : Recovers (compoundOf value) := by
  refine .plain_bind .here fun opener => .plain_bind (.take 1) fun _ =>
    .plain_bind .skipTrivia fun _ => .plain_bind .here fun content => ?_
  split
  · exact .of_plain (.failAt _ _ _)
  · exact .plain_bind (plain_expectContent _ _) fun _ =>
      (elements_recovers (pair_recovers hvalue)).bind_plain fun _ =>
        .bind (.spanFrom _) fun _ => .pure _

end Values

/-- A value logs what its container recovers from. -/
theorem valueOf_recovers {list : Parser NbtList} {compound : Parser NbtCompound}
    (hlist : Recovers list) (hcompound : Recovers compound) :
    Recovers (valueOf list compound) := by
  refine .plain_bind .here fun start => ?_
  split
  · exact .of_plain (.bind (plain_interpolated false) fun _ => .pure _)
  · split
    · exact .of_plain (.bind plain_quotedString fun _ => .pure _)
    · exact .of_plain (.bind plain_quotedString fun _ => .pure _)
    · exact .orPlaceholder hlist.map
    · exact .orPlaceholder hcompound.map
    iterate 5 exact .of_plain (.fail _)
    · exact .of_plain plain_scalar

/-- A value logs recoveries only, by induction on the levels that are left. -/
theorem value_recovers (room : Nat) : Recovers (value room) := by
  induction room with
  | zero => exact valueOf_recovers containerTooDeep_recovers containerTooDeep_recovers
  | succ room ih => exact valueOf_recovers (listOf_recovers ih) (compoundOf_recovers ih)

/-- Lists and compounds whose parsers log nothing but recoveries. -/
structure Containers.Recovers (inside : Containers) : Prop where
  /-- Lists. -/
  list : Parser.Recovers inside.list
  /-- Compounds. -/
  compound : Parser.Recovers inside.compound

/-- So do the lists and compounds of each level. -/
theorem containers_recovers (room : Nat) : (containers room).Recovers := by
  cases room with
  | zero => exact ⟨containerTooDeep_recovers, containerTooDeep_recovers⟩
  | succ room =>
      exact ⟨listOf_recovers (value_recovers room), compoundOf_recovers (value_recovers room)⟩

/-! ### Arguments -/

section Arguments

variable {inside : Containers} (hinside : inside.Recovers)

include hinside

/-- The brackets of a path log recoveries only. -/
theorem suffixes_recovers (fuel : Nat) : Recovers (suffixes inside fuel) := by
  induction fuel with
  | zero => exact .of_plain (.breakOff _)
  | succ fuel ih =>
      refine .plain_bind .here fun start => ?_
      split
      · exact hinside.list.bind fun _ => ih.bind_plain fun _ => .pure _
      · exact hinside.compound.bind fun _ => ih.bind_plain fun _ => .pure _
      · exact .of_plain (.pure _)

/-- The segments of a path log recoveries only. -/
theorem segments_recovers (fuel : Nat) (name : NbtKey) :
    Recovers (segments inside fuel name) := by
  induction fuel generalizing name with
  | zero => exact .of_plain (.breakOff _)
  | succ fuel ih =>
      refine .plain_bind .here fun start => (suffixes_recovers hinside _).bind fun suffixes =>
        .plain_bind (.spanFrom _) fun span => .plain_bind .here fun next => ?_
      split
      · exact .plain_bind (.take 1) fun _ => .plain_bind plain_segmentName fun _ =>
          (ih _).bind_plain fun _ => .pure _
      · exact .of_plain (.pure _)

/-- A path as an argument logs recoveries only. -/
theorem path_recovers (name : NbtKey) :
    Recovers (pathFrom inside name >>= fun path => Pure.pure (Argument.path path)) :=
  .bind_plain
    (.plain_bind .here fun _ => (segments_recovers hinside _ name).bind_plain fun _ =>
      .bind (.spanFrom _) fun _ => .pure _)
    fun _ => .pure _

/-- A string or a path that starts with one logs recoveries only. -/
theorem stringOrPath_recovers : Recovers (stringOrPath inside) := by
  refine .plain_bind plain_quotedString fun literal => .plain_bind .here fun next => ?_
  split
  · exact path_recovers hinside _
  · exact .of_plain (.pure _)

/-- A selector logs recoveries only. -/
theorem selector_recovers : Recovers (selector inside) := by
  refine .plain_bind .here fun start => ?_
  split
  · refine .plain_bind (.take 2) fun _ => .plain_bind .here fun opener => ?_
    dsimp only
    split
    · exact hinside.list.map.bind_plain fun _ => .bind (.spanFrom _) fun _ => .pure _
    · exact .of_plain (.bind (.pure _) fun _ => .bind (.spanFrom _) fun _ => .pure _)
  · exact .of_plain (.bind (.sliceText _ _ _) fun _ => .failAt _ _ _)

variable {run : Cursor → Parser RunClause} (hrun : ∀ start, Recovers (run start))

include hrun

/-- An argument that starts with a word logs recoveries only. -/
theorem wordArgument_recovers (count : Nat) : Recovers (wordArgument inside run count) := by
  refine .plain_bind .here fun start => ?_
  dsimp only
  split
  · exact .plain_bind (plain_bareString count) fun _ => path_recovers hinside _
  · refine .plain_bind (plain_textRun count) fun word => ?_
    split
    · exact .of_plain (.pure _)
    · exact .of_plain (.pure _)
    · split
      · exact (hrun start).bind_plain fun _ => .pure _
      · exact .of_plain (.pure _)
    · exact .of_plain (.pure _)

/-- Any other argument without interpolations logs recoveries only. -/
theorem plainArgument_recovers : Recovers (plainArgument inside run) := by
  refine .plain_bind .here fun start => ?_
  split
  · exact .of_plain (.bind plain_coordinates fun _ => .pure _)
  · split
    · split
      · exact .of_plain (.bind (plain_resourceLocation _ _) fun _ => .pure _)
      · exact .of_plain (.bind (.sliceText _ _ _) fun _ => .failAt _ _ _)
    · split
      · exact .of_plain (.bind (plain_number _ _) fun _ => .pure _)
      · exact wordArgument_recovers hinside hrun _
      · exact .of_plain (plain_unexpected _)

/-- An argument logs recoveries only. -/
theorem argument_recovers (inMacro : Bool) : Recovers (argument inside run inMacro) := by
  refine .plain_bind .here fun start => ?_
  split
  · refine .plain_bind (plain_interpolated false) fun argument => ?_
    split
    · exact .of_plain (.pure _)
    · exact .of_plain (.fail _)
  · split
    · exact .of_plain (.bind plain_coordinates fun _ => .pure _)
    · exact .of_plain (.bind plain_coordinates fun _ => .pure _)
    · exact stringOrPath_recovers hinside
    · exact stringOrPath_recovers hinside
    · exact (selector_recovers hinside).bind_plain fun _ => .pure _
    · exact hinside.list.bind_plain fun _ => .pure _
    · exact hinside.compound.bind_plain fun _ => .pure _
    · exact .of_plain (.bind plain_fakePlayer fun _ => .pure _)
    · exact plainArgument_recovers hinside hrun

end Arguments

/-- A list of arguments logs recoveries only. -/
theorem argumentList_recovers {argument : Parser Argument} {afterError : Bool} {fuel : Nat}
    (hargument : Recovers argument) : Recovers (argumentList argument afterError fuel) := by
  induction fuel generalizing afterError with
  | zero => exact .of_plain (.breakOff _)
  | succ fuel ih =>
      refine .plain_bind .here fun gap => .plain_bind .skipTrivia fun _ =>
        .plain_bind .here fun start => ?_
      split
      · exact .of_plain (.bind (.moveTo gap) fun _ => .pure _)
      · have hfirst : ∀ glued : Bool,
            Recovers (if glued = true then missingSeparator else argument) := by
          intro glued
          cases glued with
          | true => exact .of_plain plain_missingSeparator
          | false => exact hargument
        exact (hfirst _).orPlaceholder.bind fun _ => ih.bind_plain fun _ => .pure _

/-! ### Commands -/

section Commands

variable {arguments : Bool → Parser (List Argument)}
  (harguments : ∀ inMacro, Recovers (arguments inMacro))

include harguments

/-- A command logs recoveries only. -/
theorem command_recovers (inMacro : Bool) : Recovers (command (arguments inMacro)) :=
  .plain_bind .here fun _ => .plain_bind plain_commandName fun _ =>
    (harguments inMacro).bind_plain fun _ =>
      .bind (plain_commandEnd _ _) fun _ => .bind (.span _ _) fun _ => .pure _

/-- A macro command logs recoveries only. -/
theorem macroCommand_recovers (inMacro : Bool) : Recovers (macroCommand (arguments inMacro)) :=
  .plain_bind .here fun _ => .plain_bind (.take 1) fun _ => .plain_bind .skipTrivia fun _ =>
    .plain_bind plain_macroName fun _ => (harguments inMacro).bind_plain fun _ =>
      .bind (plain_commandEnd _ _) fun _ => .bind (.span _ _) fun _ => .pure _

/-- A run clause logs recoveries only. -/
theorem runClause_recovers (inMacro : Bool) (start : Cursor) :
    Recovers (runClause arguments inMacro start) := by
  refine .plain_bind .skipTrivia fun _ => .plain_bind .here fun next => ?_
  dsimp only
  split
  · exact (macroCommand_recovers harguments true).map.bind_plain fun _ =>
      .bind (.span _ _) fun _ => .pure _
  · exact (command_recovers harguments inMacro).map.bind_plain fun _ =>
      .bind (.span _ _) fun _ => .pure _

end Commands

/-- A refusal with a wider span logs no more than the clause. -/
theorem wideningTooDeep_recovers {start : Cursor} {clause : Parser RunClause}
    (hclause : Recovers clause) : Recovers (wideningTooDeep start clause) := by
  refine hclause.orElse fun error => ?_
  split
  · split
    · exact .of_plain (.failAt _ _ _)
    · exact .of_plain (.fail _)
  · exact .of_plain (.fail _)

/-- Arguments log recoveries only if their run clauses do. -/
theorem argumentsOf_recovers {inside : Containers} {clause : Cursor → Parser RunClause}
    (hinside : inside.Recovers) (hclause : ∀ start, Recovers (clause start)) (inMacro : Bool) :
    Recovers (argumentsOf inside clause inMacro) :=
  .plain_bind .here fun _ => argumentList_recovers
    (argument_recovers hinside (fun start => wideningTooDeep_recovers (hclause start)) inMacro)

/-- By induction on the levels that are left. -/
theorem arguments_recovers (room : Nat) (inMacro : Bool) : Recovers (arguments room inMacro) := by
  induction room generalizing inMacro with
  | zero => exact argumentsOf_recovers (containers_recovers 0) tooDeep_recovers inMacro
  | succ room ih =>
      exact argumentsOf_recovers (containers_recovers (room + 1)) (runClause_recovers ih inMacro)
        inMacro

end Parser

end Mcfunction
