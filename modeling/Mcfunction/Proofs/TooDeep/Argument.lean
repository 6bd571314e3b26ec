import Mcfunction.Proofs.Gaps.Places
import Mcfunction.Proofs.Placeholders
import Mcfunction.Proofs.Shape
import Mcfunction.Proofs.Statements
import Mcfunction.Proofs.Token.Reading
import Mcfunction.Proofs.TooDeep.Container

/-!
# Arguments That a Smaller Limit Cuts Off

An argument of a tolerant parse with fewer levels may stop elsewhere than that of the strict parse.
A run clause that nests too deep is skipped up to the end of its statement, so it stops behind
blanks that the strict parse has not read yet. And where no container may stand, only the first
container of a path is skipped: the next one is then an argument of its own.

`Resumes` says from where the parse of the arguments comes back to the place of the strict parse.

## Main results

* `argument_spares`: arguments, given their containers, paths and run clauses.
* `argumentWithin_spares_zero`: arguments with no level left.
-/

namespace Mcfunction

variable {many limit few room n : Nat} {c d e start : Cursor}

/-! ### Ends of statements -/

/-- The statement is the same at both ends of a walk. -/
theorem Walk.statementEnd_eq {lineStart : Bool} {marks : List Mark}
    (h : Walk lineStart c marks d) : d.statementEnd = c.statementEnd := by
  -- text on one line in which no continuation starts
  have hinline : ∀ {c : Cursor} {n : Nat}, Scan.Inline c.rest n →
      (∀ k < n, Scan.continuation (c.rest.drop k) = none) →
      (c.advance n).statementEnd = c.statementEnd := by
    intro c n hline hnone
    refine Cursor.statementEnd_advance ?_
    rcases Scan.statement_drop_or_torn hline.le_statement with heq | ⟨j, m, htorn, -⟩
    · exact heq
    · obtain ⟨hcontinuation, hlt, -⟩ := htorn
      rw [hnone j hlt] at hcontinuation
      cases hcontinuation
  induction h with
  | refl => rfl
  | @char c _ _ hordinary _ _ ih =>
      refine ih.trans (Cursor.statementEnd_advance ?_)
      rcases hrest : c.rest with _ | ⟨x, tail⟩
      · rw [hrest] at hordinary
        cases hordinary
      · rw [hrest] at hordinary
        obtain ⟨hnewline, -, -, hnone⟩ := Scan.startsOrdinary_cons.mp hordinary
        rw [Scan.statement_cons hnewline hnone, List.drop_succ_cons, List.drop_zero, Nat.add_comm]
  | continuation hcontinuation _ ih =>
      have hstatement := Scan.statement_of_continuation hcontinuation
      exact ih.trans (Cursor.statementEnd_advance hstatement.symm)
  | string _ hstart hok _ ih =>
      exact ih.trans (hinline (Scan.inline_quoted hstart hok)
        (Scan.continuation_drop_of_quoted hstart hok))
  | interpolation _ hstart hok _ ih =>
      exact ih.trans (hinline (Scan.inline_interpolation hstart hok).2
        (Scan.continuation_drop_of_interpolation hstart hok))

/-- From the end of the trimmed statement on, only blanks are left of it. -/
theorem Within.skipTrivia_eq_of_trimmed (h : Within c d)
    (hle : c.advance (Scan.trimmedStatement c.rest) ≤ d) : d.skipTrivia = c.statementEnd := by
  obtain ⟨m, hm, rfl⟩ := h.exists_advance
  have htrimmed : Scan.trimmedStatement c.rest ≤ m := by
    by_contra hlt
    have hlen := (Scan.trimmedStatement_le_statement c.rest).trans (Scan.statement_le_length _)
    exact absurd (Cursor.advance_lt_advance (Nat.lt_of_not_le hlt) hlen) (not_lt_of_ge hle)
  obtain ⟨heq, hend⟩ := Scan.statement_drop_of_blanks hm fun x hx =>
    Scan.isBlank_of_mem_drop_trimmedStatement c.rest x
      ((List.drop_sublist_drop_left _ htrimmed).subset hx)
  rw [← Cursor.statementEnd_advance heq, Cursor.statementEnd_of_atStatementEnd]
  rw [Cursor.skipTrivia, Cursor.advance_rest, Cursor.advance_rest]
  exact hend

/-! ### Going on behind an argument -/

/-- Both places have only trivia before the end of the line, and it is the same end. -/
def MeetAtLineEnd (next d : Cursor) : Prop :=
  next.skipTrivia = d.skipTrivia ∧ Scan.atLineEnd d.skipTrivia.rest

/-- Where a tolerant parse goes on, compared with the place where the strict parse does. With no
level left it may have containers to skip before it gets there. -/
inductive Resumes (few : Nat) : Cursor → Cursor → Prop
  /-- At the same place. -/
  | same {next} : Resumes few next next
  /-- At the end of the line. -/
  | lineEnd {next d} : MeetAtLineEnd next d → Resumes few next d
  /-- At a container before that. -/
  | container {next e d} : few = 0 → Boxed next e → Resumes few e d → Resumes few next d

/-- The parse resumes where the run stops, or where recovery from its error at `start` does. -/
def Ending.argument (few : Nat) (start : Cursor) : Ending :=
  ⟨Resumes few, fun d error => ∃ next, start ≤ next ∧
    Parser.skipEnd start error = next.offset ∧ Resumes few next d⟩

/-! ### Paths with containers at their end -/

/-- Recovery skips the containers of a path whole: only the last segment has some. -/
def WholePath (segments : List PathSegment) : Prop :=
  (∀ segment ∈ segments.dropLast, segment.suffixes = []) ∧
    ∀ segment ∈ segments, Transparent (segment.suffixes.flatMap PathSuffix.nodes)

theorem WholePath.of_cons {segment : PathSegment} {segments : List PathSegment}
    (h : WholePath (segment :: segments)) : WholePath segments := by
  refine ⟨fun other hother => h.1 other ?_, (List.forall_mem_cons.mp h.2).2⟩
  cases segments with
  | nil => cases hother
  | cons => exact List.mem_cons_of_mem segment hother

theorem WholePath.of_skippedWhole {path : NbtPath}
    (h : SkippedWhole ((Argument.path path).tooDeep 0)) : WholePath path.segments := by
  rw [Argument.tooDeep] at h
  split at h
  · rename_i hnest
    have hnone : ∀ segment ∈ path.segments, segment.suffixes = [] := by
      intro segment hsegment
      have hnest : segment.nest ≤ 0 :=
        deepest_le_iff.mp (show path.nest ≤ 0 from hnest.le) segment hsegment
      rcases hsuffixes : segment.suffixes with _ | ⟨suffix, others⟩
      · rfl
      · have hsuffix : suffix.nest ≤ 0 :=
          deepest_le_iff.mp hnest suffix (hsuffixes ▸ List.mem_cons_self)
        cases suffix with
        | index list => exact absurd hsuffix (Nat.not_le_of_gt list.nest_pos)
        | filter compound => exact absurd hsuffix (Nat.not_le_of_gt compound.nest_pos)
    refine ⟨fun segment hsegment => hnone segment (List.dropLast_subset _ hsegment),
      fun segment hsegment => ?_⟩
    rw [hnone segment hsegment]
    exact List.forall_mem_nil _
  · have hwhole := h _ (List.mem_singleton_self _)
    rw [Node.isSkippedWhole, Bool.and_eq_true, List.all_eq_true, List.all_eq_true] at hwhole
    refine ⟨fun segment hsegment => List.isEmpty_iff.mp (hwhole.1 segment hsegment),
      fun segment hsegment node hnode => hwhole.2 node ?_⟩
    exact List.mem_flatMap.mpr ⟨segment, hsegment, List.mem_append_right _ hnode⟩

/-- Behind a container the parse resumes with the next one. -/
theorem SuffixesAt.resumes {suffixes : List PathSuffix} (h : SuffixesAt room c suffixes d)
    (hnodes : Transparent (suffixes.flatMap PathSuffix.nodes)) : Resumes 0 c d := by
  induction h with
  | nil => exact .same
  | index hlist _ ih =>
      obtain ⟨hfirst, hothers⟩ := List.forall_mem_append.mp hnodes
      exact .container rfl (hlist.boxed hfirst) (ih hothers)
  | filter hcompound _ ih =>
      obtain ⟨hfirst, hothers⟩ := List.forall_mem_append.mp hnodes
      exact .container rfl (hcompound.boxed hfirst) (ih hothers)

/-- The containers of the last segment: the first one is skipped. -/
theorem SegmentsAt.exists_boxed {segments : List PathSegment} {name : NbtKey}
    (hopen : c.peek = some '[' ∨ c.peek = some '{') (hwhole : WholePath segments)
    (h : SegmentsAt room start name c segments d) : ∃ e, Boxed c e ∧ Resumes 0 e d := by
  obtain ⟨hnone, hnodes⟩ := hwhole
  cases h with
  | last hsuffixes =>
      have hnodes := hnodes _ (List.mem_singleton_self _)
      cases hsuffixes with
      | nil hsquare hcurly => exact (hopen.elim hsquare hcurly).elim
      | index hlist hothers =>
          obtain ⟨hfirst, hothers'⟩ := List.forall_mem_append.mp hnodes
          exact ⟨_, hlist.boxed hfirst, hothers.resumes hothers'⟩
      | filter hcompound hothers =>
          obtain ⟨hfirst, hothers'⟩ := List.forall_mem_append.mp hnodes
          exact ⟨_, hcompound.boxed hfirst, hothers.resumes hothers'⟩
  | next hsuffixes _ _ hothers =>
      have hempty : _ = [] := hnone _ (by
        rw [List.dropLast_cons_of_ne_nil hothers.ne_nil]
        exact List.mem_cons_self)
      dsimp only at hempty
      subst hempty
      obtain ⟨hsquare, hcurly⟩ := hsuffixes
      exact (hopen.elim hsquare hcurly).elim

namespace Parser

/-! ### The ways of an argument -/

/-- What a steady parser does is the same in both runs. -/
theorem Spares.steady_bind {α β : Type} {ending : Ending} {good : β → Prop} {origin : Cursor}
    {p : Parser α} {post : α → Cursor → Prop} {f g : α → Parser β} (hp : Steady origin c p post)
    (hf : ∀ value d, post value d → Spares many limit ending good d (f value) (g value)) :
    Spares many limit ending good c (p >>= f) (p >>= g) := by
  obtain ⟨_, houtcome, hsame⟩ := hp
  cases houtcome with
  | done hvalue => exact .done_bind (hsame _) (hsame _) (hf _ _ hvalue)
  | failed =>
      intro result log d hrun
      rw [bind_failed (hsame _)] at hrun
      cases hrun

section Ways

variable {inside inside' : Containers} {run run' : Cursor → Parser RunClause} {inMacro : Bool}
  {ending : Ending} {good : Argument → Prop}

/-- Selectors are spared if their filters are. -/
theorem selector_spares {good : Selector → Prop} (hsame : ∀ d, ending.stops d d)
    (hat : c.peek = some '@')
    (hfilter : ∀ target, (c.advance 1).peek.bind SelectorTarget.ofChar? = some target →
      (c.advance 2).peek = some '[' → Spares many limit ending
        (fun filter => ∃ span, good ⟨target, some filter, span⟩) (c.advance 2) inside.list
        inside'.list) :
    Spares many limit ending good c (selector inside) (selector inside') := by
  refine .here_bind ?_
  rcases htarget : (c.advance 1).peek.bind SelectorTarget.ofChar? with _ | target
  · exact .of_same (.of_plain (.bind (.sliceText _ _ _) fun _ => .failAt _ _ _)) hsame
  · have htwo := (inline_target hat htarget).le_length
    refine .done_bind (take_run htwo) (take_run htwo) (.here_bind ?_)
    dsimp only
    by_cases hopen : (c.advance 2).peek = some '['
    · rw [if_pos (by simpa using hopen), if_pos (by simpa using hopen), map_bind, map_bind]
      have hend : ∀ filter : NbtList, Still (spanFrom c.offset >>= fun span =>
          Pure.pure (⟨target, some filter, span⟩ : Selector)) :=
        fun filter => (Still.spanFrom _).bind fun _ => .pure _
      refine (hfilter target htarget hopen).bind_still (fun filter => ?_) hend hend
      exact .andThen fun span => .pure fun h => ⟨span, h⟩
    · rw [if_neg (by simpa using hopen), if_neg (by simpa using hopen)]
      exact .of_same (.of_plain (.bind (.pure none) fun _ => .bind (.spanFrom _) fun _ => .pure _))
        hsame

section Paths

variable (hsame : ∀ d, ending.stops d d)
  (hpath : ∀ name d, KeyAt c name d → startsPathSuffix d.rest → Spares many limit ending
    (fun path => good (.path path)) d (pathFrom inside name) (pathFrom inside' name))

include hsame hpath

/-- Quoted strings and the paths they start are spared if these are. -/
theorem stringOrPath_spares (hplain : Scan.startsInterpolated false c.rest = false)
    (hquoted : Scan.startsQuoted c.rest) :
    Spares many limit ending good c (stringOrPath inside) (stringOrPath inside') := by
  refine .steady_bind (quotedString_steady (.refl c) hquoted) ?_
  rintro _ _ ⟨q, hq, rfl, rfl⟩
  refine .here_bind ?_
  split
  · rename_i hsuffix
    exact (hpath _ _ (.quoted (startsInterpolated_key_eq_false hplain) hquoted hq) hsuffix).map
  · exact .of_same (.pure _ _) hsame

variable (hrun : ∀ n, Scan.word c.rest = some n → Spares many limit ending
  (fun clause => good (.run clause)) (c.advance n) (run c) (run' c))

include hrun

/-- What a word starts is spared if paths and run clauses are. -/
theorem wordArgument_spares (hplain : Scan.startsInterpolated false c.rest = false)
    (hquoted : Scan.startsQuoted c.rest = false) (hword : Scan.word c.rest = some n) :
    Spares many limit ending good c (wordArgument inside run n) (wordArgument inside' run' n) := by
  have hlen := (Scan.inline_word hword).le_length
  have hpure : ∀ {d} (argument : Argument),
      Spares many limit ending good d (Pure.pure argument) (Pure.pure argument) :=
    fun argument => .of_same (.pure _ _) hsame
  refine .here_bind ?_
  dsimp only
  split
  · rename_i hsuffix
    have hkey : KeyAt c (.plain (c.bareString n)) (c.advance n) :=
      .bare (startsInterpolated_key_eq_false hplain) hquoted hword
    refine .done_bind (bareString_run hlen) (bareString_run hlen) (.map ?_)
    exact hpath _ _ hkey (by rwa [Cursor.advance_rest])
  · refine .done_bind (textRun_run hlen) (textRun_run hlen) ?_
    split
    · exact hpure _
    · exact hpure _
    · split
      · exact (hrun n hword).map
      · exact hpure _
    · exact hpure _

/-- Arguments outside a macro are spared if the containers in them are. -/
theorem plainArgument_spares (hplain : Scan.startsInterpolated false c.rest = false)
    (hquoted : Scan.startsQuoted c.rest = false) :
    Spares many limit ending good c (plainArgument inside run) (plainArgument inside' run') := by
  refine .here_bind ?_
  split
  · exact .of_same (.of_plain (.bind plain_coordinates fun _ => .pure _)) hsame
  · split
    · split
      · exact .of_same (.of_plain (.bind (plain_resourceLocation _ _) fun _ => .pure _)) hsame
      · exact .of_same (.of_plain (.bind (.sliceText _ _ _) fun _ => .failAt _ _ _)) hsame
    · split
      · exact .of_same (.of_plain (.bind (plain_number _ _) fun _ => .pure _)) hsame
      · rename_i n _ hword
        exact wordArgument_spares hsame hpath hrun hplain hquoted hword
      · exact .of_same (.of_plain (plain_unexpected _)) hsame

/-- Two runs at an argument differ only in the containers and the run clause that it may have. -/
theorem argument_spares
    (hlist : c.peek = some '[' →
      Spares many limit ending (fun list => good (.list list)) c inside.list inside'.list)
    (hcompound : c.peek = some '{' → Spares many limit ending
      (fun compound => good (.compound compound)) c inside.compound inside'.compound)
    (hfilter : c.peek = some '@' → ∀ target,
      (c.advance 1).peek.bind SelectorTarget.ofChar? = some target →
        (c.advance 2).peek = some '[' → Spares many limit ending
          (fun filter => ∃ span, good (.selector ⟨target, some filter, span⟩)) (c.advance 2)
          inside.list inside'.list) :
    Spares many limit ending good c (argument inside run inMacro)
      (argument inside' run' inMacro) := by
  refine .here_bind ?_
  by_cases hinterpolated : Scan.startsInterpolated false c.rest
  · rw [if_pos hinterpolated, if_pos hinterpolated]
    refine .of_same (.of_plain (.bind (plain_interpolated false) fun _ => ?_)) hsame
    split
    · exact .pure _
    · exact .fail _
  · rw [if_neg hinterpolated, if_neg hinterpolated]
    rw [Bool.not_eq_true] at hinterpolated
    split
    · exact .of_same (.of_plain (.bind plain_coordinates fun _ => .pure _)) hsame
    · exact .of_same (.of_plain (.bind plain_coordinates fun _ => .pure _)) hsame
    · exact stringOrPath_spares hsame hpath hinterpolated (startsQuoted_of_peek ‹_› (.inl rfl))
    · exact stringOrPath_spares hsame hpath hinterpolated (startsQuoted_of_peek ‹_› (.inr rfl))
    · exact (selector_spares hsame ‹_› (hfilter ‹_›)).map
    · exact (hlist ‹_›).map
    · exact (hcompound ‹_›).map
    · exact .of_same (.of_plain (.bind plain_fakePlayer fun _ => .pure _)) hsame
    · rename_i hdouble hsingle _ _ _ _
      refine plainArgument_spares hsame hpath hrun hinterpolated ?_
      rw [Bool.eq_false_iff]
      intro hquoted
      obtain ⟨body, hrest | hrest⟩ := Scan.startsQuoted_iff.mp hquoted
      · exact hdouble (Cursor.peek_of_cons hrest)
      · exact hsingle (Cursor.peek_of_cons hrest)

end Paths

end Ways

/-! ### Run clauses with no level left -/

/-- A run clause that a strict parse reads has no placeholders. -/
theorem runClause_placeholders {inMacro : Bool} {clause : RunClause} {log : List Event}
    (hstart : Within start c)
    (hrun : runClause (arguments room) inMacro start ⟨many, .strict⟩ c = .done clause log d) :
    placeholders clause.nodes = [] := by
  have hreads : Reads many c c (runClause (arguments room) inMacro start)
      (RunClauseAt (ArgumentsAt room) inMacro start c) :=
    runClause_reads (ArgumentsAt.argumentsPlaced room) (arguments_reads room) hstart.le
  have htells : Tells many start c (runClause (arguments room) inMacro start) []
      fun clause => placeholders clause.nodes := runClause_tells (arguments_tells room) hstart
  rw [Reads, hrun] at hreads
  rw [Tells] at htells
  generalize runClause (arguments room) inMacro start ⟨many, .tolerant⟩ c = tolerant
    at hreads htells
  cases hreads with
  | done hlog =>
      cases htells with
      | done hparts htold =>
          exact hparts.trans (htold.eq_nil_iff.mpr (firstError?_eq_none_iff.mp hlog))

/-- Recovery reaches over the whole error, as far as the statement goes. -/
theorem min_le_skipEnd (c : Cursor) (error : ParseError) :
    min error.span.stop c.statementEnd.offset ≤ skipEnd c error := by
  have hlimit : c.offsetAfter (Scan.statement c.rest) = c.statementEnd.offset := rfl
  have hend : c.offset ≤ c.charEnd := by
    obtain ⟨d, hle, hend⟩ := c.exists_charEnd
    exact hend ▸ Cursor.offset_le_of_le hle
  rw [skipEnd, hlimit]
  split
  · omega
  · omega

/-- The error of a run clause where none may stand reaches up to the end of the trimmed
statement. -/
theorem wideningTooDeep_run_tooDeep :
    wideningTooDeep c (tooDeep c) ⟨limit, .tolerant⟩ d =
      .failed ⟨.nestingTooDeep limit, c.spanTo (c.advance (Scan.trimmedStatement c.rest))⟩ [] := by
  have hle := (Within.advance (Scan.trimmedStatement_le_statement c.rest)).le
  rw [wideningTooDeep, orElse, tooDeep_run]
  dsimp only
  rw [if_pos (by simp), Cursor.offsetAfter, failAt_run (Cursor.offset_le_of_le hle)]
  rfl

/-- Recovery from that error leaves only blanks of the statement. -/
theorem exists_skipEnd_tooDeep (hline : Scan.atLineEnd c.rest = false) :
    ∃ next, c ≤ next ∧
      skipEnd c ⟨.nestingTooDeep limit, c.spanTo (c.advance (Scan.trimmedStatement c.rest))⟩ =
        next.offset ∧
      next.skipTrivia = c.statementEnd := by
  have htrimmed : Within c (c.advance (Scan.trimmedStatement c.rest)) :=
    .advance (Scan.trimmedStatement_le_statement c.rest)
  generalize hplace : c.advance (Scan.trimmedStatement c.rest) = trimmed at htrimmed
  obtain ⟨next, hlt, hwithin, hskip⟩ := @skipEnd_eq c ⟨.nestingTooDeep limit, c.spanTo trimmed⟩
    ⟨c, trimmed, le_rfl, htrimmed.le, rfl⟩ hline
  have hle : trimmed ≤ next := by
    refine Cursor.le_of_offset_le htrimmed.le hlt.le ?_
    have hmin : min trimmed.offset c.statementEnd.offset ≤ _ :=
      min_le_skipEnd c ⟨.nestingTooDeep limit, c.spanTo trimmed⟩
    rwa [hskip, min_eq_left (Cursor.offset_le_of_le htrimmed.le_end)] at hmin
  exact ⟨next, hlt.le, hskip, hwithin.skipTrivia_eq_of_trimmed (hplace ▸ hle)⟩

/-- A run clause that nests too deep is skipped with all that is left of its statement. -/
theorem runClause_spares_zero {inMacro : Bool} {good : RunClause → Prop}
    (hword : Scan.word c.rest = some n) :
    Spares many limit (.argument 0 c) good (c.advance n)
      (wideningTooDeep c (runClause (arguments room) inMacro c))
      (wideningTooDeep c (tooDeep c)) := by
  intro clause log d hrun _
  have hinline := Scan.inline_word hword
  have hclause := wideningTooDeep_eq_done hrun
  have hread : RunClauseAt (ArgumentsAt room) inMacro c (c.advance n) clause d :=
    (runClause_reads (ArgumentsAt.argumentsPlaced room) (arguments_reads room)
      (Cursor.le_advance hinline.le_length)).post_of_run hclause
  -- the strict run goes on to the end of the statement, and so does recovery
  have hend := hread.atLineEnd (ArgumentsAt.argumentsPlaced room)
  have hwalk := (Walk.token (Scan.taken_word hword)).trans
    (hread.marked (ArgumentsAt.marked room) (runClause_placeholders (.inline hinline) hclause))
  have hstop : d.skipTrivia = c.statementEnd :=
    (Cursor.statementEnd_of_atStatementEnd hend).symm.trans hwalk.statementEnd_eq
  obtain ⟨next, hle, hskip, hnext⟩ := @exists_skipEnd_tooDeep limit c
    (Placed.inline (Scan.word_pos hword) hinline).atLineEnd
  rw [wideningTooDeep_run_tooDeep]
  exact .failed .nil rfl ⟨next, hle, hskip, .lineEnd ⟨hnext.trans hstop.symm, hend⟩⟩

/-! ### Paths with no level left -/

/-- Recovery at `start` from the error that a container may not stand at `c` ends right behind the
container. -/
theorem Spares.of_boxed {α : Type} {good : α → Prop} {p q : Parser α} (hpass : Passes [] start c)
    (hp : Spares many limit (.boxed c) good c p q) :
    Spares many limit (.argument 0 start) good c p q := by
  refine hp.weaken ?_ ?_
  · rintro next _ rfl
    exact .same
  · rintro d ⟨cause, _⟩ ⟨hboxed, rfl⟩
    obtain ⟨x, hpeek⟩ := hboxed.exists_peek
    exact ⟨d, (hpass.le hpeek).trans hboxed.lt.le, skipEnd_of_boxed hpass hboxed, .same⟩

theorem startsPathSuffix_of_peek
    (h : c.peek = some '[' ∨ c.peek = some '{' ∨ c.peek = some '.') : startsPathSuffix c.rest := by
  rcases h with h | h | h
  all_goals
    obtain ⟨tail, hrest⟩ := List.head?_eq_some_iff.mp h
    rw [hrest]
    rfl

/-- Where no bracket opens, a key has no more suffixes. -/
theorem suffixes_run_nil {inside : Containers} {fuel : Nat} {s : Settings}
    (hsquare : c.peek ≠ some '[') (hcurly : c.peek ≠ some '{') :
    suffixes inside (fuel + 1) s c = .done [] [] c := by
  rw [suffixes, bind_done here_run]
  refine congrFun (congrFun (?_ : _ = (Pure.pure [] : Parser (List PathSuffix))) s) c
  split
  · exact absurd ‹_› hsquare
  · exact absurd ‹_› hcurly
  · rfl

/-- With no level left, an opening bracket is too deep. -/
theorem suffixes_run_tooDeep {fuel : Nat} {mode : Mode}
    (hopen : c.peek = some '[' ∨ c.peek = some '{') :
    suffixes (containers 0) (fuel + 1) ⟨limit, mode⟩ c =
      .failed ⟨.nestingTooDeep limit, ⟨c.offset, c.charEnd⟩⟩ [] := by
  rw [suffixes, bind_done here_run]
  rcases hopen with hopen | hopen
  · rw [hopen]
    exact bind_failed containerTooDeep_run
  · rw [hopen]
    exact bind_failed containerTooDeep_run

/-- The segments of a path whose last one alone has containers, by induction on the fuel. -/
theorem segments_spares_zero {name : NbtKey} {origin : Cursor} {fuel : Nat}
    (hname : Placed origin name.span c) (hfuel : c.rest.length < fuel)
    (hpass : startsPathSuffix c.rest → Passes [] start c) :
    Spares many limit (.argument 0 start) WholePath c (segments (containers room) fuel name)
      (segments (containers 0) fuel name) := by
  induction fuel generalizing origin name c with
  | zero => exact absurd hfuel (Nat.not_lt_zero _)
  | succ fuel ih =>
      by_cases hopen : c.peek = some '[' ∨ c.peek = some '{'
      · intro segs log d hrun hwhole
        have hread : SegmentsAt room origin name c segs d :=
          (segments_reads le_rfl hname hfuel).post_of_run hrun
        obtain ⟨e, hboxed, hresumes⟩ := hread.exists_boxed hopen hwhole
        have hpass := hpass (startsPathSuffix_of_peek (hopen.elim .inl (.inr ∘ .inl)))
        rw [segments, bind_done here_run, bind_failed (suffixes_run_tooDeep hopen)]
        obtain ⟨x, hpeek⟩ := hboxed.exists_peek
        exact .failed .nil rfl ⟨e, (hpass.le hpeek).trans hboxed.lt.le,
          skipEnd_of_boxed hpass hboxed, hresumes⟩
      · obtain ⟨hsquare, hcurly⟩ := not_or.mp hopen
        rw [segments, segments]
        refine .here_bind (.done_bind (suffixes_run_nil hsquare hcurly)
          (suffixes_run_nil hsquare hcurly) (.still_bind (.spanFrom _) fun span => .here_bind ?_))
        by_cases hpoint : c.peek = some '.'
        · rw [if_pos (by simpa using hpoint), if_pos (by simpa using hpoint)]
          have hone := Cursor.length_pos_of_peek hpoint
          have hnext := (Within.peek hpoint (by decide)).1
          refine .done_bind (take_run hone) (take_run hone)
            (.steady_bind (segmentName_steady _) fun next e hkey => ?_)
          have hlength := Cursor.length_lt_of_lt (hnext.le.trans_lt hkey.placed.lt)
          refine (ih hkey.placed (by omega) fun hsuffix => ?_).bind_still
            (fun others => .pure WholePath.of_cons) (fun _ => .pure _) fun _ => .pure _
          have hhere := hpass (startsPathSuffix_of_peek (.inr (.inr hpoint)))
          exact (hhere.trans (.peek hpoint rfl (.inr rfl))).trans
            (hkey.passes_of_startsPathSuffix hsuffix)
        · rw [if_neg (by simpa using hpoint), if_neg (by simpa using hpoint)]
          exact .of_same (.pure _ _) fun _ => .same

/-- A path that recovery skips whole or that has no containers. -/
theorem pathFrom_spares_zero {name : NbtKey} (hname : KeyAt start name c)
    (hsuffix : startsPathSuffix c.rest) :
    Spares many limit (.argument 0 start)
      (fun path => SkippedWhole ((Argument.path path).tooDeep 0)) c
      (pathFrom (containers room) name) (pathFrom (containers 0) name) := by
  have hend : ∀ segments : List PathSegment,
      Still (spanFrom name.span.start >>= fun span => Pure.pure (⟨segments, span⟩ : NbtPath)) :=
    fun _ => (Still.spanFrom _).bind fun _ => .pure _
  refine .here_bind ((segments_spares_zero hname.placed (Nat.lt_succ_self _) fun _ =>
    hname.passes_of_startsPathSuffix hsuffix).bind_still (fun segments => ?_) hend hend)
  exact .andThen fun span => .pure WholePath.of_skippedWhole

/-! ### Arguments with no level left -/

/-- Recovery skips whole an argument that nests and is neither a path nor a run clause if it is
transparent. -/
theorem transparent_of_skippedWhole_argument {argument : Argument}
    (h : SkippedWhole (argument.tooDeep 0)) (hnest : 0 < argument.nest)
    (hnode : (Node.argument argument).isSkippedWhole = argument.nodes.all Node.isTransparent) :
    Transparent argument.nodes := by
  rw [Argument.tooDeep, if_neg hnest.ne'] at h
  have hwhole := h _ (List.mem_singleton_self _)
  rw [hnode] at hwhole
  exact List.all_eq_true.mp hwhole

/-- The `@` of a selector and its letter. -/
theorem target_passes {target : SelectorTarget} (hat : c.peek = some '@')
    (htarget : (c.advance 1).peek.bind SelectorTarget.ofChar? = some target) :
    Passes [] c (c.advance 2) := by
  obtain ⟨x, hpeek, hx⟩ := Option.bind_eq_some_iff.mp htarget
  obtain ⟨hplain, hblank⟩ := SelectorTarget.isPlain_of_ofChar? hx
  have hat : Passes [] c (c.advance 1) := .peek hat rfl (.inr rfl)
  have hpass := hat.trans (.peek hpeek hplain (.inr hblank))
  rwa [Cursor.advance_advance] at hpass

/-- An argument where nothing may nest. -/
theorem argumentWithin_spares_zero (room : Nat) (inMacro : Bool) (c : Cursor) :
    Spares many limit (.argument 0 c) (fun argument => SkippedWhole (argument.tooDeep 0)) c
      (argumentWithin room inMacro) (argumentWithin 0 inMacro) := by
  refine argument_spares (fun _ => .same) (fun name d hkey => pathFrom_spares_zero hkey)
    (fun n hword => ?_) (fun hpeek => ?_) (fun hpeek => ?_) fun hat target htarget hopen => ?_
  · cases room with
    | zero =>
        intro clause log d hrun
        exact (tooDeep_never _ _ _ _ _ (wideningTooDeep_eq_done hrun)).elim
    | succ room => exact runClause_spares_zero hword
  · refine .of_boxed (.refl [] c) (containerTooDeep_spares fun list log d hrun hgood => ?_)
    refine ((list_reads room hpeek).post_of_run hrun).boxed ?_
    have hnodes := transparent_of_skippedWhole_argument hgood list.nest_pos rfl
    exact (List.forall_mem_cons.mp hnodes).2
  · refine .of_boxed (.refl [] c) (containerTooDeep_spares fun compound log d hrun hgood => ?_)
    refine ((compound_reads room hpeek).post_of_run hrun).boxed ?_
    have hnodes := transparent_of_skippedWhole_argument hgood compound.nest_pos rfl
    exact (List.forall_mem_cons.mp hnodes).2
  · refine .of_boxed (target_passes hat htarget)
      (containerTooDeep_spares fun list log d hrun hgood => ?_)
    obtain ⟨span, hgood⟩ := hgood
    refine ((list_reads room hopen).post_of_run hrun).boxed ?_
    have hnodes := transparent_of_skippedWhole_argument hgood list.nest_pos rfl
    exact (List.forall_mem_cons.mp (List.forall_mem_cons.mp hnodes).2).2

end Parser

end Mcfunction
