import Mcfunction.Proofs.Bracketed.Command

/-!
# Placeholders over Well-Bracketed Text

Each placeholder in the place of an argument or a container is told of by an event of the parse.
Where a container or a selector with one starts, such an event tells of a placeholder over just
that text. No parser but `recover` logs such an event, so this holds of a whole parse because it
holds of every place where an argument or a value becomes a placeholder.

## Main results

* `Parser.Covers.bind`: the rule for one parser after another.
* `Parser.Covers.orPlaceholder`: the rule for a parser whose errors become placeholders.
* `value_covers`, `arguments_covers`: containers and commands with any number of levels left.
-/

namespace Mcfunction

/-- If a container, or a selector with one, starts where the placeholder of a recovery does, then
it ends where the placeholder does. Nothing is said of an argument that has not been read because
it is glued to the one before it. -/
def Event.Covers (text : Cursor) : Event → Prop
  | .recovered error skipped => ∀ c stop, text ≤ c → c.offset = skipped.start → Encloses stop c →
      (c.peek = some '@' → error.cause ≠ .missingSeparator) → skipped = c.spanTo stop
  | .started _ _ | .skippedStatement _ _ | .neverInterpolated _ | .statement _ _
  | .finished _ _ => True

variable {α β : Type} {text c d : Cursor}

/-- A success stays in the text, and whatever comes of it, the events are such. -/
def Outcome.Covers (text : Cursor) : Outcome α → Prop
  | .done _ log d => text ≤ d ∧ ∀ event ∈ log, event.Covers text
  | .failed _ log => ∀ event ∈ log, event.Covers text
  | .broken _ => True

/-- Events that came before cover as well as those that follow. -/
theorem Outcome.Covers.after {outcome : Outcome α} {log : List Event} (h : outcome.Covers text)
    (hlog : ∀ event ∈ log, event.Covers text) : (outcome.after log).Covers text := by
  have happend : ∀ {later : List Event}, (∀ event ∈ later, event.Covers text) →
      ∀ event ∈ log ++ later, event.Covers text := by
    intro later hlater event hevent
    rcases List.mem_append.mp hevent with hmem | hmem
    · exact hlog event hmem
    · exact hlater event hmem
  cases outcome with
  | done => exact ⟨h.1, happend h.2⟩
  | failed => exact happend h
  | broken => trivial

namespace Parser

variable {limit : Nat} {p : Parser α} {f : α → Parser β}

/-- The placeholders of the tolerant run of `p` at `c` cover such texts, and the run stays in the
text. -/
def Covers (limit : Nat) (text c : Cursor) (p : Parser α) : Prop :=
  (p ⟨limit, .tolerant⟩ c).Covers text

namespace Covers

/-- A value leaves no placeholder. -/
theorem pure {value : α} (h : text ≤ c) : Covers limit text c (Pure.pure value) :=
  ⟨h, List.forall_mem_nil _⟩

/-- A failure leaves no placeholder by itself. -/
theorem fail {error : ParseError} : Covers limit text c (Parser.fail error : Parser α) :=
  List.forall_mem_nil _

/-- A broken promise leaves no placeholder. -/
theorem breakOff {fault : Fault} : Covers limit text c (Parser.breakOff fault : Parser α) :=
  trivial

/-- The rule for one parser after another. -/
theorem bind (hp : Covers limit text c p)
    (hf : ∀ value d, text ≤ d → Covers limit text d (f value)) :
    Covers limit text c (p >>= f) := by
  rw [Covers] at hp
  rw [Covers, bind_run]
  cases hrun : p ⟨limit, .tolerant⟩ c with
  | done value log d =>
      rw [hrun] at hp
      exact (hf value d hp.1).after hp.2
  | failed error log =>
      rw [hrun] at hp
      exact hp
  | broken fault => trivial

/-- A parser that logs nothing. -/
theorem of_steady {origin : Cursor} {post : α → Cursor → Prop} (hp : Steady origin c p post)
    (h : ∀ value d, post value d → text ≤ d) : Covers limit text c p := by
  obtain ⟨_, houtcome, hrun⟩ := hp
  rw [Covers, hrun]
  cases houtcome with
  | done hvalue => exact ⟨h _ _ hvalue, List.forall_mem_nil _⟩
  | failed herror => exact List.forall_mem_nil _

/-- Looking without moving. -/
theorem still_bind (hp : Still p) (hf : ∀ value, Covers limit text c (f value)) :
    Covers limit text c (p >>= f) := by
  rw [Covers]
  rcases hp c with ⟨value, hrun⟩ | ⟨fault, hrun⟩
  · rw [bind_done (hrun _)]
    exact hf value
  · rw [bind_run, hrun]
    trivial

/-- An error at some offsets leaves no placeholder by itself. -/
theorem failAt {cause : Cause} {i j : Nat} :
    Covers limit text c (Parser.failAt cause i j : Parser α) :=
  .still_bind (.span i j) fun _ => fail

/-- The span of what has been read is the last thing that is found out. -/
theorem spanFrom {i : Nat} {g : Span → α} (h : text ≤ c) :
    Covers limit text c (Parser.spanFrom i >>= fun span => Pure.pure (g span)) :=
  .still_bind (.spanFrom i) fun _ => pure h

/-- An event that covers may be logged first. -/
theorem log_bind {event : Event} {f : Unit → Parser β} (hevent : event.Covers text)
    (hf : Covers limit text c (f ())) : Covers limit text c (Parser.log event >>= f) := by
  rw [Covers, bind_run, log_run, Outcome.andThen_done]
  exact Outcome.Covers.after hf (List.forall_mem_singleton.mpr hevent)

/-- Moving to a place of the text leaves no placeholder. -/
theorem moveTo (h : text ≤ d) : Covers limit text c (Parser.moveTo d) :=
  ⟨h, List.forall_mem_nil _⟩

/-- What a value is turned into does not matter. -/
theorem map {g : α → β} (hp : Covers limit text c p) : Covers limit text c (g <$> p) :=
  hp.bind fun _ _ hd => pure hd

end Covers

/-- What follows a parser that is certain to succeed. -/
theorem covers_bind_iff {value : α} (h : p ⟨limit, .tolerant⟩ c = .done value [] d) :
    Covers limit text c (p >>= f) ↔ Covers limit text d (f value) := by
  rw [Covers, bind_done h, Covers]

/-- Asking for the place leaves only the rest to cover. -/
@[simp] theorem covers_here_bind {f : Cursor → Parser β} :
    Covers limit text c (here >>= f) ↔ Covers limit text c (f c) :=
  covers_bind_iff here_run

/-- Skipping spacing leaves only the rest to cover. -/
@[simp] theorem covers_skipTrivia_bind {f : Unit → Parser β} :
    Covers limit text c (skipTrivia >>= f) ↔ Covers limit text c.skipTrivia (f ()) :=
  covers_bind_iff skipTrivia_run

/-- Taking characters leaves only the rest to cover. -/
theorem covers_take_bind {n : Nat} {f : Unit → Parser β} (h : n ≤ c.rest.length) :
    Covers limit text c (take n >>= f) ↔ Covers limit text (c.advance n) (f ()) :=
  covers_bind_iff (take_run h)

/-! ### Recovery -/

/-- Going to an offset leaves no placeholder. -/
theorem goTo_covers (i : Nat) (htext : text ≤ c) : Covers limit text c (goTo i) := by
  rw [goTo, covers_here_bind]
  cases hplace : c.at? i with
  | none => exact .breakOff
  | some d => exact .moveTo (htext.trans (Cursor.at?_eq_some hplace).1)

/-- A recovery covers if its event does. -/
theorem recover_covers {error : ParseError} (htext : text ≤ c)
    (hevent : Event.Covers text (.recovered error ⟨c.offset, skipEnd c error⟩)) :
    Covers limit text c (recover error) := by
  rw [recover, covers_here_bind]
  dsimp only
  by_cases hle : c.offset ≤ skipEnd c error
  · rw [covers_bind_iff (span_run hle)]
    exact .log_bind hevent ((goTo_covers _ htext).bind fun _ _ hd => .pure hd)
  · rw [span, Span.between, if_neg hle]
    exact .breakOff

/-- The rule for a parser whose errors another one takes care of. -/
theorem Covers.orElse {handler : ParseError → Parser α} (hp : Covers limit text c p)
    (hhandler : ∀ {error log}, p ⟨limit, .tolerant⟩ c = .failed error log →
      Covers limit text c (handler error)) :
    Covers limit text c (orElse p handler) := by
  rw [Covers] at hp
  rw [Covers, Parser.orElse]
  cases hrun : p ⟨limit, .tolerant⟩ c with
  | done value log d =>
      rw [hrun] at hp
      exact hp
  | broken fault => trivial
  | failed error log =>
      rw [hrun] at hp
      exact Outcome.Covers.after (hhandler hrun) hp

/-- The rule for a parser whose errors become placeholders: where a container or a selector with
one starts, they must not reach over its end. -/
theorem Covers.orPlaceholder {placeholder : ErrorNode → α} (htext : text ≤ c)
    (hp : Covers limit text c p)
    (hend : ∀ {stop error log}, Encloses stop c → p ⟨limit, .tolerant⟩ c = .failed error log →
      (c.peek = some '@' → error.cause ≠ .missingSeparator) →
      error.span.stop ≤ stop.offset) :
    Covers limit text c (orPlaceholder p placeholder) := by
  refine hp.orElse fun {error log} hrun => ?_
  have hevent : Event.Covers text (.recovered error ⟨c.offset, skipEnd c error⟩) := by
    intro c' stop htext' hoffset h hcause
    obtain rfl : c' = c := le_antisymm (Cursor.le_of_offset_le htext' htext hoffset.le)
      (Cursor.le_of_offset_le htext htext' hoffset.ge)
    rw [skipEnd_of_chunk h.lt h.balancedChunk (hend h hrun hcause)]
    rfl
  rw [covers_bind_iff settings_run]
  exact (recover_covers htext hevent).bind fun _ _ hd => .pure hd

/-- What is not expected leaves no placeholder by itself. -/
theorem unexpected_covers {wanted : Wanted} :
    Covers limit text c (unexpected wanted : Parser α) := by
  have hsteady : Steady c c (unexpected wanted : Parser α) fun _ _ => False :=
    unexpected_steady (.refl c)
  exact .of_steady hsteady fun _ _ hnever => hnever.elim

/-! ### Containers -/

variable {bracket : Bracket} {opener : Cursor} {room : Nat}

/-- Looking for content leaves no placeholder. -/
theorem expectContent_covers (h : text ≤ c) :
    Covers limit text c (expectContent bracket opener) := by
  rw [expectContent, covers_here_bind]
  split
  · exact .still_bind .here fun _ => .failAt
  · exact .pure h

/-- Separators leave no placeholder. -/
theorem separator_covers (h : text ≤ c) : Covers limit text c (separator bracket opener) := by
  have h := h.trans c.le_skipTrivia
  rw [separator, covers_skipTrivia_bind, covers_here_bind]
  split
  · exact .still_bind .here fun _ => .failAt
  · rename_i hpeek
    have hlen := Cursor.length_pos_of_peek hpeek
    have hnext := h.trans (Cursor.le_advance hlen)
    split
    · rw [covers_take_bind hlen, covers_skipTrivia_bind, covers_here_bind]
      split
      · exact .failAt
      · exact (expectContent_covers (hnext.trans (Cursor.le_skipTrivia _))).bind
          fun _ _ hd => .pure hd
    · split
      · rw [covers_take_bind hlen]
        exact .pure hnext
      · split
        · exact .still_bind .here fun _ => .failAt
        · exact .failAt

/-- The elements of a container cover if each of them does. -/
theorem elements_covers {element : Parser α} {fuel : Nat}
    (helement : ∀ c, text ≤ c → Covers limit text c element) (h : text ≤ c) :
    Covers limit text c (elements element bracket opener fuel) := by
  induction fuel generalizing c with
  | zero => exact .breakOff
  | succ fuel ih =>
      rw [elements]
      refine (helement c h).bind fun first d hd => (separator_covers hd).bind fun closed e he => ?_
      cases closed with
      | true => exact .pure he
      | false => exact (ih he).bind fun _ _ hend => .pure hend

section Values

variable {value : Parser NbtValue} (hvalue : ∀ c, text ≤ c → Covers limit text c value)

include hvalue

/-- A pair covers if its value does. -/
theorem pair_covers (h : text ≤ c) : Covers limit text c (pair value) := by
  have hkey : Covers limit text c key :=
    .of_steady (key_steady c) fun _ _ hkey => h.trans hkey.placed.le
  have hoperator : ∀ {d}, text ≤ d → Covers limit text d operator := by
    refine fun {d} hd => .of_steady (operator_steady d) ?_
    rintro operator _ ⟨hoperator, rfl⟩
    obtain ⟨x, hpeek, -⟩ := Option.bind_eq_some_iff.mp hoperator
    exact hd.trans (Cursor.le_advance_of_peek hpeek)
  rw [pair, covers_here_bind]
  refine hkey.bind fun key d hd => ?_
  rw [covers_skipTrivia_bind]
  refine (hoperator (hd.trans d.le_skipTrivia)).bind fun operator e he => ?_
  rw [covers_skipTrivia_bind]
  exact (hvalue _ (he.trans e.le_skipTrivia)).bind fun _ _ hend => .spanFrom hend

/-- A list covers if its values do. -/
theorem listOf_covers (h : text ≤ c) (hpeek : c.peek = some '[') :
    Covers limit text c (listOf value) := by
  have hcontent := (h.trans (Cursor.le_advance_of_peek hpeek)).trans (Cursor.le_skipTrivia _)
  rw [listOf, covers_here_bind, covers_take_bind (Cursor.length_pos_of_peek hpeek),
    covers_skipTrivia_bind, covers_here_bind]
  by_cases hclose : (c.advance 1).skipTrivia.peek = some ']'
  · rw [if_pos (by simpa using hclose), covers_take_bind (Cursor.length_pos_of_peek hclose)]
    exact .spanFrom (hcontent.trans (Cursor.le_advance_of_peek hclose))
  · rw [if_neg (by simpa using hclose)]
    refine (expectContent_covers hcontent).bind fun _ d hd => ?_
    dsimp only
    split
    · rw [map_bind]
      exact (elements_covers (fun _ => pair_covers hvalue) hd).bind fun _ _ he => .spanFrom he
    · rw [map_bind]
      exact (elements_covers hvalue hd).bind fun _ _ he => .spanFrom he

/-- A compound covers if its values do. -/
theorem compoundOf_covers (h : text ≤ c) (hpeek : c.peek = some '{') :
    Covers limit text c (compoundOf value) := by
  have hcontent := (h.trans (Cursor.le_advance_of_peek hpeek)).trans (Cursor.le_skipTrivia _)
  rw [compoundOf, covers_here_bind, covers_take_bind (Cursor.length_pos_of_peek hpeek),
    covers_skipTrivia_bind, covers_here_bind]
  split
  · exact .failAt
  · refine (expectContent_covers hcontent).bind fun _ d hd => ?_
    exact (elements_covers (fun _ => pair_covers hvalue) hd).bind fun _ _ he => .spanFrom he

end Values

/-- Values that hold no others cover. -/
theorem scalar_covers (h : text ≤ c) : Covers limit text c scalar := by
  have hsteady : Steady c c scalar (ValueOfAt (fun _ _ _ => False) (fun _ _ _ => False) c) :=
    scalar_steady c
  exact .of_steady hsteady fun _ _ hvalue =>
    h.trans (hvalue.placed (fun _ _ _ h => h.elim) (fun _ _ _ h => h.elim)).le

/-- The error for nesting too deep leaves no placeholder by itself. -/
theorem tooDeep_covers {start : Cursor} : Covers limit text c (tooDeep start : Parser α) := by
  rw [tooDeep, covers_bind_iff settings_run]
  exact .failAt

/-- A container that is cut off leaves no placeholder by itself. -/
theorem containerTooDeep_covers : Covers limit text c (containerTooDeep : Parser α) := by
  rw [containerTooDeep, covers_here_bind]
  exact tooDeep_covers

/-- A container in value position. -/
theorem container_covers {p : Parser NbtValue}
    (hconfined : ConfinesContainer ⟨limit, .tolerant⟩ bracket p) (h : text ≤ c)
    (hpeek : c.peek = some bracket.opener) (hp : Covers limit text c p) :
    Covers limit text c (orPlaceholder p .error) :=
  hp.orPlaceholder h fun hencloses hrun _ =>
    (hconfined _ _ (hencloses.opens hpeek)).stop_le_of_failed hrun

/-- Bare macro arguments leave no placeholder. -/
theorem interpolated_covers {inKey : Bool} (h : text ≤ c)
    (hinterpolated : Scan.startsInterpolated inKey c.rest) :
    Covers limit text c (interpolated inKey) :=
  .of_steady (interpolated_steady (.refl c) hinterpolated) fun _ _ hread =>
    h.trans hread.placed.le

/-- Quoted strings leave no placeholder. -/
theorem quotedString_covers (h : text ≤ c) (hquoted : Scan.startsQuoted c.rest) :
    Covers limit text c quotedString := by
  refine .of_steady (quotedString_steady (.refl c) hquoted) ?_
  rintro _ _ ⟨q, hq, rfl, rfl⟩
  exact h.trans (Cursor.le_advance (Scan.inline_quoted hquoted hq).le_length)

/-- A value covers if lists and compounds do. -/
theorem value_covers_of
    (hlist : ∀ c, text ≤ c → c.peek = some '[' → Covers limit text c (list room))
    (hcompound : ∀ c, text ≤ c → c.peek = some '{' → Covers limit text c (compound room))
    (h : text ≤ c) : Covers limit text c (value room) := by
  rw [value_eq, valueOf, covers_here_bind]
  by_cases hinterpolated : Scan.startsInterpolated false c.rest
  · rw [if_pos hinterpolated]
    exact (interpolated_covers h hinterpolated).bind fun _ _ hd => .pure hd
  · rw [if_neg hinterpolated]
    split
    · rename_i hpeek
      exact (quotedString_covers h (startsQuoted_of_peek hpeek (.inl rfl))).bind
        fun _ _ hd => .pure hd
    · rename_i hpeek
      exact (quotedString_covers h (startsQuoted_of_peek hpeek (.inr rfl))).bind
        fun _ _ hd => .pure hd
    · rename_i hpeek
      exact container_covers ((list_confined room).map _) h hpeek (hlist c h hpeek).map
    · rename_i hpeek
      exact container_covers ((compound_confined room).map _) h hpeek (hcompound c h hpeek).map
    iterate 5 exact .fail
    · exact scalar_covers h

/-- The placeholders in a value cover the containers they stand for. -/
theorem value_covers (room : Nat) (h : text ≤ c) : Covers limit text c (value room) := by
  induction room generalizing c with
  | zero =>
      exact value_covers_of (fun _ _ _ => containerTooDeep_covers)
        (fun _ _ _ => containerTooDeep_covers) h
  | succ room ih =>
      exact value_covers_of (fun c h => listOf_covers (fun c => ih) h)
        (fun c h => compoundOf_covers (fun c => ih) h) h

/-- The placeholders in a list cover the containers they stand for. -/
theorem list_covers (room : Nat) (h : text ≤ c) (hpeek : c.peek = some '[') :
    Covers limit text c (list room) := by
  cases room with
  | zero => exact containerTooDeep_covers
  | succ room => exact listOf_covers (fun c => value_covers room) h hpeek

/-- The placeholders in a compound cover the containers they stand for. -/
theorem compound_covers (room : Nat) (h : text ≤ c) (hpeek : c.peek = some '{') :
    Covers limit text c (compound room) := by
  cases room with
  | zero => exact containerTooDeep_covers
  | succ room => exact compoundOf_covers (fun c => value_covers room) h hpeek

/-! ### Paths -/

/-- The suffixes of a key cover. -/
theorem suffixes_covers {fuel : Nat} (h : text ≤ c) :
    Covers limit text c (suffixes (containers room) fuel) := by
  induction fuel generalizing c with
  | zero => exact .breakOff
  | succ fuel ih =>
      rw [suffixes, covers_here_bind]
      split
      · rename_i hpeek
        exact (list_covers room h hpeek).bind fun _ _ hd => (ih hd).bind fun _ _ he => .pure he
      · rename_i hpeek
        exact (compound_covers room h hpeek).bind fun _ _ hd => (ih hd).bind fun _ _ he => .pure he
      · exact .pure h

/-- The segments of a path cover. -/
theorem segments_covers {fuel : Nat} {name : NbtKey} (h : text ≤ c) :
    Covers limit text c (segments (containers room) fuel name) := by
  induction fuel generalizing name c with
  | zero => exact .breakOff
  | succ fuel ih =>
      rw [segments, covers_here_bind]
      refine (suffixes_covers h).bind fun suffixes d hd => .still_bind (.spanFrom _) fun span => ?_
      rw [covers_here_bind]
      by_cases hpoint : d.peek = some '.'
      · have hnext := hd.trans (Cursor.le_advance_of_peek hpoint)
        rw [if_pos (by simpa using hpoint), covers_take_bind (Cursor.length_pos_of_peek hpoint)]
        have hname : Covers limit text (d.advance 1) segmentName :=
          .of_steady (segmentName_steady _) fun _ _ hkey => hnext.trans hkey.placed.le
        exact hname.bind fun _ _ he => (ih he).bind fun _ _ hend => .pure hend
      · rw [if_neg (by simpa using hpoint)]
        exact .pure hd

/-- A path behind its first key covers. -/
theorem pathFrom_covers {name : NbtKey} (h : text ≤ c) :
    Covers limit text c (pathFrom (containers room) name) := by
  rw [pathFrom, covers_here_bind]
  exact (segments_covers h).bind fun _ _ hd => .spanFrom hd

/-! ### Arguments -/

/-- Coordinates leave no placeholder. -/
theorem coordinates_covers (h : text ≤ c) : Covers limit text c coordinates := by
  refine .of_steady (coordinates_steady (.refl c)) ?_
  rintro _ _ ⟨ranges, hranges, rfl, rfl⟩
  obtain ⟨-, -, -, -, -, hline⟩ := Scan.coordinates_eq_some hranges
  exact h.trans (Cursor.le_advance hline.le_length)

/-- Fake players leave no placeholder. -/
theorem fakePlayer_covers (h : text ≤ c) : Covers limit text c fakePlayer := by
  refine .of_steady (fakePlayer_steady (.refl c)) ?_
  rintro _ _ ⟨n, hname, rfl, rfl⟩
  obtain ⟨name, k, hrest, rfl, hline⟩ := Scan.fakePlayer_eq_some hname
  refine h.trans (Cursor.le_advance ?_)
  rw [hrest]
  exact Nat.succ_le_succ hline.le_length

/-- The filter of a selector covers. -/
theorem selector_covers (h : text ≤ c) (hat : c.peek = some '@') :
    Covers limit text c (selector (containers room)) := by
  rw [selector, covers_here_bind]
  rcases htarget : (c.advance 1).peek.bind SelectorTarget.ofChar? with _ | target
  · exact .still_bind (.sliceText _ _ _) fun written => .failAt
  · have htwo := (inline_target hat htarget).le_length
    have hd := h.trans (Cursor.le_advance htwo)
    dsimp only
    rw [covers_take_bind htwo, covers_here_bind]
    by_cases hfilter : (c.advance 2).peek = some '['
    · rw [if_pos (by simpa using hfilter), map_bind]
      exact (list_covers room hd hfilter).bind fun _ _ he => .spanFrom he
    · rw [if_neg (by simpa using hfilter), pure_eq, covers_bind_iff (pure_run none)]
      exact .spanFrom hd

/-- A quoted string covers, alone or as the first key of a path. -/
theorem stringOrPath_covers (h : text ≤ c) (hquoted : Scan.startsQuoted c.rest) :
    Covers limit text c (stringOrPath (containers room)) := by
  rw [stringOrPath]
  refine (quotedString_covers h hquoted).bind fun literal d hd => ?_
  rw [covers_here_bind]
  split
  · exact (pathFrom_covers hd).bind fun _ _ he => .pure he
  · exact .pure hd

section Arguments

variable {run : Cursor → Parser RunClause} {inMacro : Bool} {n : Nat}
  (hrun : ∀ start d, text ≤ d → Covers limit text d (run start))

include hrun

/-- Words cover, and so do the run clauses they start. -/
theorem wordArgument_covers (h : text ≤ c) (hword : Scan.word c.rest = some n) :
    Covers limit text c (wordArgument (containers room) run n) := by
  have hlen := (Scan.inline_word hword).le_length
  have hd := h.trans (Cursor.le_advance hlen)
  rw [wordArgument, covers_here_bind]
  dsimp only
  split
  · rw [covers_bind_iff (bareString_run hlen)]
    exact (pathFrom_covers hd).bind fun _ _ he => .pure he
  · rw [covers_bind_iff (textRun_run hlen)]
    split
    · exact .pure hd
    · exact .pure hd
    · split
      · exact (hrun c _ hd).bind fun _ _ he => .pure he
      · exact .pure hd
    · exact .pure hd

/-- Arguments outside a macro cover. -/
theorem plainArgument_covers (h : text ≤ c) :
    Covers limit text c (plainArgument (containers room) run) := by
  rw [plainArgument, covers_here_bind]
  split
  · exact (coordinates_covers h).bind fun _ _ hd => .pure hd
  · split
    · rename_i space hspace
      split
      · rename_i path hpath
        have hlen := (Scan.inline_location hspace hpath).le_length
        exact (covers_bind_iff (resourceLocation_run hspace hpath)).mpr
          (.pure (h.trans (Cursor.le_advance hlen)))
      · exact .still_bind (.sliceText _ _ _) fun written => .failAt
    · split
      · rename_i n suffix hnumber
        have hlen := (Scan.inline_suffixedNumber (Scan.wholeNumber_eq_some hnumber)).le_length
        exact (covers_bind_iff (number_run hnumber)).mpr
          (.pure (h.trans (Cursor.le_advance hlen)))
      · rename_i n _ hword
        exact wordArgument_covers hrun h hword
      · exact unexpected_covers

/-- Arguments cover. -/
theorem argument_covers (h : text ≤ c) :
    Covers limit text c (argument (containers room) run inMacro) := by
  rw [argument, covers_here_bind]
  by_cases hinterpolated : Scan.startsInterpolated false c.rest
  · rw [if_pos hinterpolated, interpolatedArgument]
    refine (interpolated_covers h hinterpolated).bind fun argument d hd => ?_
    split
    · exact .pure hd
    · exact .fail
  · rw [if_neg hinterpolated]
    split
    · exact (coordinates_covers h).bind fun _ _ hd => .pure hd
    · exact (coordinates_covers h).bind fun _ _ hd => .pure hd
    · rename_i hpeek
      exact stringOrPath_covers h (startsQuoted_of_peek hpeek (.inl rfl))
    · rename_i hpeek
      exact stringOrPath_covers h (startsQuoted_of_peek hpeek (.inr rfl))
    · rename_i hpeek
      exact (selector_covers h hpeek).bind fun _ _ hd => .pure hd
    · rename_i hpeek
      exact (list_covers room h hpeek).bind fun _ _ hd => .pure hd
    · rename_i hpeek
      exact (compound_covers room h hpeek).bind fun _ _ hd => .pure hd
    · exact (fakePlayer_covers h).bind fun _ _ hd => .pure hd
    · exact plainArgument_covers hrun h

end Arguments

/-! ### Commands -/

/-- The parser for a missing separator fails with no other error. -/
theorem cause_of_missingSeparator_failed {s : Settings} {error : ParseError} {log : List Event}
    (h : (missingSeparator : Parser α) s c = .failed error log) :
    error.cause = .missingSeparator := by
  have hle : c.offset ≤ c.offsetAfter (Scan.chunk c.rest) :=
    Cursor.offset_le_of_le (Cursor.le_advance (Scan.chunk_le_length _))
  rw [missingSeparator, bind_done here_run, failAt_run hle] at h
  cases h
  rfl

/-- A list of arguments covers if each argument does and is confined to what encloses it. -/
theorem argumentList_covers {argument : Parser Argument} {afterError : Bool} {fuel : Nat}
    (hargument : ∀ c, text ≤ c → Covers limit text c argument)
    (hconfined : ∀ {stop c}, Encloses stop c →
      Confines ⟨limit, .tolerant⟩ stop c argument fun _ _ => True) (h : text ≤ c) :
    Covers limit text c (argumentList argument afterError fuel) := by
  induction fuel generalizing c afterError with
  | zero => exact .breakOff
  | succ fuel ih =>
      have hstart := h.trans c.le_skipTrivia
      rw [argumentList, covers_here_bind, covers_skipTrivia_bind, covers_here_bind]
      split
      · exact (Covers.moveTo h).bind fun _ _ hd => .pure hd
      · have hfirst : Covers limit text c.skipTrivia
            (orPlaceholder (if glued c afterError then missingSeparator else argument) .error) := by
          cases hglued : glued c afterError with
          | true =>
              -- only a selector can be glued to what stands before it
              refine Covers.orPlaceholder hstart (.still_bind .here fun _ => .failAt) ?_
              intro stop error log hencloses hrun hcause
              cases hencloses with
              | container hopens => rw [glued_of_opens hopens] at hglued; cases hglued
              | selector hat => exact absurd (cause_of_missingSeparator_failed hrun) (hcause hat)
          | false =>
              exact Covers.orPlaceholder hstart (hargument _ hstart) fun hencloses hrun _ =>
                (hconfined hencloses).stop_le_of_failed hrun
        exact hfirst.bind fun _ _ hd => (ih hd).bind fun _ _ he => .pure he

section Commands

variable {arguments : Bool → Parser (List Argument)} {inMacro : Bool}
  (harguments : ∀ inMacro c, text ≤ c → Covers limit text c (arguments inMacro))

include harguments

/-- Commands cover. -/
theorem command_covers (h : text ≤ c) : Covers limit text c (command (arguments inMacro)) := by
  have hname : Covers limit text c commandName := by
    refine .of_steady (commandName_steady (.refl c)) ?_
    rintro _ _ ⟨n, hname, rfl, rfl⟩
    exact h.trans (Cursor.le_advance (Scan.inline_commandName hname).le_length)
  rw [command, covers_here_bind]
  refine hname.bind fun name d hd => (harguments inMacro d hd).bind fun args e he => ?_
  exact .still_bind (still_commandEnd _ _) fun _ => .still_bind (.span _ _) fun _ => .pure he

/-- Macro commands cover. -/
theorem macroCommand_covers (h : text ≤ c) (hdollar : c.peek = some '$') :
    Covers limit text c (macroCommand (arguments inMacro)) := by
  have hstart := (h.trans (Cursor.le_advance_of_peek hdollar)).trans (Cursor.le_skipTrivia _)
  have hname : Covers limit text (c.advance 1).skipTrivia macroName :=
    .of_steady (macroName_steady _) fun _ _ hname => hstart.trans hname.placed.le
  rw [macroCommand, covers_here_bind, covers_take_bind (Cursor.length_pos_of_peek hdollar),
    covers_skipTrivia_bind]
  refine hname.bind fun name d hd => (harguments inMacro d hd).bind fun args e he => ?_
  exact .still_bind (still_commandEnd _ _) fun _ => .still_bind (.span _ _) fun _ => .pure he

/-- Run clauses cover. -/
theorem runClause_covers {start : Cursor} (h : text ≤ c) :
    Covers limit text c (runClause arguments inMacro start) := by
  have h := h.trans c.le_skipTrivia
  rw [runClause, covers_skipTrivia_bind, covers_here_bind]
  by_cases hdollar : c.skipTrivia.peek = some '$'
  · rw [if_pos (by simpa using hdollar), map_bind]
    exact (macroCommand_covers harguments h hdollar).bind fun _ _ hd =>
      .still_bind (.span _ _) fun _ => .pure hd
  · rw [if_neg (by simpa using hdollar), map_bind]
    exact (command_covers harguments h).bind fun _ _ hd =>
      .still_bind (.span _ _) fun _ => .pure hd

end Commands

/-- Giving an error of a clause the rest of its line leaves no placeholder. -/
theorem wideningTooDeep_covers {start : Cursor} {clause : Parser RunClause}
    (h : Covers limit text c clause) : Covers limit text c (wideningTooDeep start clause) := by
  refine h.orElse fun {error log} _ => ?_
  split
  · split
    · exact .failAt
    · exact .fail
  · exact .fail

/-- The placeholders among arguments cover what they stand for, whatever room is left. -/
theorem arguments_covers (room : Nat) (inMacro : Bool) (h : text ≤ c) :
    Covers limit text c (arguments room inMacro) := by
  induction room generalizing inMacro c with
  | zero =>
      have hrun : ∀ start d, text ≤ d →
          Covers limit text d (wideningTooDeep start (tooDeep start)) :=
        fun _ _ _ => wideningTooDeep_covers tooDeep_covers
      rw [arguments_eq, covers_here_bind]
      exact argumentList_covers (fun _ => argument_covers hrun) argumentWithin_confined h
  | succ room ih =>
      have hrun : ∀ start d, text ≤ d →
          Covers limit text d (wideningTooDeep start (runClause (arguments room) inMacro start)) :=
        fun _ _ hd => wideningTooDeep_covers (runClause_covers (fun inMacro _ => ih inMacro) hd)
      rw [arguments_eq, covers_here_bind]
      exact argumentList_covers (fun _ => argument_covers hrun) argumentWithin_confined h

end Parser

end Mcfunction
