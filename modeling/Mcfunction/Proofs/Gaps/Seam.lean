import Mcfunction.Proofs.Gaps.Swap
import Mcfunction.Proofs.Parser.Steady

/-!
# Runs in Front of a Gap

What a strict parse has read when it reaches a gap does not depend on the gap. A `Seam` is a place
of a text with the gap that stands there and another one that could. `Parser.Local` says of a parser
that its runs that succeed and end at that place at the latest are the same with the other gap,
with one rule for each way of building a parser.

A run that ends behind the seam is not compared with anything: it may have looked for the end of a
quoted string, or for a third coordinate, in the gap or beyond.

## Main results

* `Seam.place_advance`: moving over characters in front of the seam.
* `Parser.Local.bind`: the rule for one parser after another.
-/

namespace Mcfunction

instance (c d : Cursor) : Decidable (c ≤ d) :=
  decidable_of_iff (∃ n, n ≤ c.rest.length ∧ d = c.advance n) Cursor.le_iff_exists_advance.symm

/-- A place of a text where a gap stands, and another gap that could stand there. -/
structure Seam where
  /-- The place where the gap starts. -/
  cut : Cursor
  /-- The gap. -/
  old : List Char
  /-- The other gap. -/
  new : List Char
  /-- What follows the gap. -/
  after : List Char
  /-- The gap stands there. -/
  rest_eq : cut.rest = old ++ after
  /-- The other could as well. -/
  interchangeable : Scan.Interchangeable old new after

namespace Seam

variable (seam : Seam) {c d : Cursor} {m n : Nat}

/-- A place in front of the seam with the other gap there; other places stay as they are. -/
def place (c : Cursor) : Cursor :=
  if c ≤ seam.cut then
    ⟨c.offset,
      c.rest.take (c.rest.length - seam.cut.rest.length) ++ (seam.new ++ seam.after)⟩
  else c

/-- Places keep their offsets. -/
@[simp] theorem place_offset (c : Cursor) : (seam.place c).offset = c.offset := by
  rw [place]
  split <;> rfl

variable {seam}

/-- What is left at a place in front of the seam goes on with either gap. -/
theorem exists_before (h : c ≤ seam.cut) :
    ∃ chars, c.rest = chars ++ (seam.old ++ seam.after) ∧
      seam.place c = ⟨c.offset, chars ++ (seam.new ++ seam.after)⟩ := by
  obtain ⟨chars, hrest, -⟩ := id h
  refine ⟨chars, by rw [hrest, seam.rest_eq], ?_⟩
  rw [place, if_pos h, hrest, List.length_append, Nat.add_sub_cancel, List.take_left]

/-- The characters in front of the seam, or behind it no difference. -/
theorem place_cases (seam : Seam) (c : Cursor) :
    (∃ chars, c.rest = chars ++ (seam.old ++ seam.after) ∧
      (seam.place c).rest = chars ++ (seam.new ++ seam.after)) ∨ seam.place c = c := by
  by_cases h : c ≤ seam.cut
  · obtain ⟨chars, hrest, hplace⟩ := exists_before h
    exact .inl ⟨chars, hrest, by rw [hplace]⟩
  · exact .inr (if_neg h)

/-- A place in front of the seam faces the two gaps. -/
theorem facing (seam : Seam) (c : Cursor) :
    Scan.Facing seam.old seam.new seam.after c.rest (seam.place c).rest := by
  rcases seam.place_cases c with ⟨chars, hrest, hplace⟩ | hsame
  · rw [hrest, hplace]
    exact .before chars
  · rw [hsame]
    exact .same c.rest

/-- A recognizer that no gap concerns finds the same with the other gap. -/
theorem place_scan {α : Type} {f : List Char → α} (seam : Seam) (c : Cursor)
    (hf : ∀ {gap chars}, Scan.Separates gap seam.after →
      f (chars ++ (gap ++ seam.after)) = f chars) :
    f (seam.place c).rest = f c.rest :=
  ((seam.facing c).scan_eq seam.interchangeable hf).symm

/-- Characters that do not reach over the seam are in front of the gap. -/
theorem le_length {chars : List Char} (hn : n ≤ c.rest.length) (h : c.advance n ≤ seam.cut)
    (hrest : c.rest = chars ++ (seam.old ++ seam.after)) : n ≤ chars.length := by
  have hlen := Cursor.length_le_of_le h
  simp only [Cursor.advance_rest, List.length_drop, seam.rest_eq, hrest,
    List.length_append] at hn hlen
  omega

/-- Characters in front of the seam are the same with the other gap. -/
theorem place_take (hn : n ≤ c.rest.length) (h : c.advance n ≤ seam.cut) :
    (seam.place c).rest.take n = c.rest.take n := by
  obtain ⟨chars, hrest, hplace⟩ := exists_before ((Cursor.le_advance hn).trans h)
  have hlen := le_length hn h hrest
  rw [hplace, hrest, List.take_append_of_le_length hlen, List.take_append_of_le_length hlen]

/-- As many characters are left with the other gap. -/
theorem le_length_place (hn : n ≤ c.rest.length) (h : c.advance n ≤ seam.cut) :
    n ≤ (seam.place c).rest.length := by
  obtain ⟨chars, hrest, hplace⟩ := exists_before ((Cursor.le_advance hn).trans h)
  have hlen := le_length hn h hrest
  rw [hplace]
  exact hlen.trans (by simp)

/-- Moving on in front of the seam is moving on with the other gap. -/
theorem place_advance (hn : n ≤ c.rest.length) (h : c.advance n ≤ seam.cut) :
    (seam.place c).advance n = seam.place (c.advance n) := by
  have hnext := le_length_place hn h
  have htake := place_take hn h
  obtain ⟨chars, hrest, hplace⟩ := exists_before ((Cursor.le_advance hn).trans h)
  obtain ⟨chars', hrest', hplace'⟩ := exists_before h
  have hlen := le_length hn h hrest
  have hdrop : chars' = chars.drop n := by
    rw [Cursor.advance_rest, hrest, List.drop_append_of_le_length hlen] at hrest'
    exact (List.append_cancel_right hrest').symm
  have hoffset : ((seam.place c).advance n).offset = (c.advance n).offset := by
    rw [Cursor.advance_offset hnext, Cursor.advance_offset hn, htake, place_offset]
  have hleft : ((seam.place c).advance n).rest = chars' ++ (seam.new ++ seam.after) := by
    rw [Cursor.advance_rest, hplace, List.drop_append_of_le_length hlen, hdrop]
  rw [hplace', ← hoffset, ← hleft]

/-- Offsets in front of the seam are the same with the other gap. -/
theorem place_offsetAfter (hn : n ≤ c.rest.length) (h : c.advance n ≤ seam.cut) :
    (seam.place c).offsetAfter n = c.offsetAfter n := by
  rw [Cursor.offsetAfter, place_advance hn h, place_offset, Cursor.offsetAfter]

/-- Texts in front of the seam are the same with the other gap. -/
theorem place_textBetween (hn : n ≤ c.rest.length) (h : c.advance n ≤ seam.cut) :
    (seam.place c).textBetween m n = c.textBetween m n := by
  have htake := place_take hn h
  rw [Cursor.textBetween, Cursor.textBetween, ← List.drop_take, ← List.drop_take, htake]

/-- Trivia that end in front of the seam. -/
theorem place_skipTrivia (h : c.skipTrivia ≤ seam.cut) :
    (seam.place c).skipTrivia = seam.place c.skipTrivia := by
  have hlen := Scan.trivia_le_length c.rest
  have hscan : Scan.trivia (seam.place c).rest = Scan.trivia c.rest := by
    obtain ⟨chars, hrest, hplace⟩ := exists_before (c.le_skipTrivia.trans h)
    have hle := le_length hlen h hrest
    rw [hplace, hrest] at *
    rw [seam.interchangeable.old_separates.trivia_append] at hle ⊢
    rw [seam.interchangeable.new_separates.trivia_append]
    split_ifs with hall
    · have hpos := seam.interchangeable.old_separates.length_pos
      rw [if_pos hall] at hle
      omega
    · rfl
  rw [Cursor.skipTrivia, hscan, place_advance hlen h]
  rfl

/-- Places in front of the seam keep their order. -/
theorem place_le (h : c ≤ d) (hd : d ≤ seam.cut) : seam.place c ≤ seam.place d := by
  obtain ⟨n, hn, rfl⟩ := Cursor.le_iff_exists_advance.mp h
  rw [← place_advance hn hd]
  exact Cursor.le_advance (le_length_place hn hd)

/-- With the other gap as well, less is left further on. -/
theorem length_place_lt (h : c < d) (hd : d ≤ seam.cut) :
    (seam.place d).rest.length < (seam.place c).rest.length := by
  refine Cursor.length_lt_of_lt (Cursor.lt_iff.mpr ⟨place_le h.le hd, ?_⟩)
  rw [place_offset, place_offset]
  exact Cursor.offset_lt_of_lt h

/-- A loop over the rest of the text has a turn less left after each turn in front of the seam. -/
theorem length_place_lt_of_turn {fuel k : Nat}
    (hfuel : c ≤ seam.cut → (seam.place c).rest.length < fuel)
    (hk : c ≤ seam.cut → fuel = k + 1) (hcd : c < d) (hd : d ≤ seam.cut) :
    (seam.place d).rest.length < k := by
  have hc := hcd.le.trans hd
  have hlt := length_place_lt hcd hd
  have := hfuel hc
  have := hk hc
  omega

/-- What can be sliced in front of the seam can be with the other gap. -/
theorem exists_place_slice? {i j : Nat} {chars : List Char} (hd : c ≤ d) (hcut : d ≤ seam.cut)
    (hj : j ≤ d.offset) (h : c.slice? i j = some chars) :
    ∃ chars', (seam.place c).slice? i j = some chars' := by
  obtain ⟨a, ha, hcuts⟩ := Option.bind_eq_some_iff.mp h
  obtain ⟨hca, rfl⟩ := Cursor.at?_eq_some ha
  obtain ⟨rfl, tail, hrest⟩ := Cursor.cut?_eq_some hcuts
  have hab : a ≤ ⟨a.offset + byteWidth chars, tail⟩ := ⟨chars, hrest, rfl⟩
  have hbd := (Cursor.le_of_offset_le (hca.trans hab) hd hj).trans hcut
  have hslice := Cursor.slice?_offset (place_le hca (hab.trans hbd)) (place_le hab hbd)
  rw [place_offset, place_offset] at hslice
  exact ⟨_, hslice⟩

end Seam

namespace Parser

variable {α β γ γ' : Type} {seam : Seam} {s : Settings} {c d : Cursor} {n : Nat}

/-- What a strict parse gives meets its condition. -/
theorem Reads.post_of_run {limit : Nat} {origin : Cursor} {p : Parser α}
    {post : α → Cursor → Prop} {value : α} {log : List Event} (h : Reads limit origin c p post)
    (hrun : p ⟨limit, .strict⟩ c = .done value log d) : post value d := by
  have hsound := Outcome.Lockstep.sound_strict h
  rw [hrun] at hsound
  cases hsound with
  | done hpost => exact hpost

/-- The runs of `p` that succeed in front of the seam are those of `p'` with the other gap. -/
def Local (seam : Seam) (s : Settings) (c : Cursor) (p p' : Parser α) : Prop :=
  ∀ value log d, p s c = .done value log d → c ≤ d ∧
    (d ≤ seam.cut → ∃ log', p' s (seam.place c) = .done value log' (seam.place d))

section

variable {p p' p'' : Parser α} {f f' : α → Parser β}

/-- A run that succeeds gives its value mapped. -/
theorem map_done {g : α → β} {value : α} {log : List Event} (h : p s c = .done value log d) :
    (g <$> p) s c = .done (g value) log d := by
  rw [map_eq_bind, bind_run, h, Outcome.andThen_done, pure_run, Outcome.after_done,
    List.append_nil]

/-- A mapped value comes of a run that succeeds. -/
theorem map_eq_done {g : α → β} {value : β} {log : List Event}
    (h : (g <$> p) s c = .done value log d) :
    ∃ first, p s c = .done first log d ∧ value = g first := by
  rw [map_eq_bind, bind_run] at h
  obtain ⟨first, earlier, _, _, hfirst, hpure, rfl⟩ := Outcome.andThen_eq_done h
  cases hpure
  exact ⟨first, by rw [List.append_nil, hfirst], rfl⟩

/-- Where the first parser succeeds, the alternative does. -/
theorem orElse_done {handler : ParseError → Parser α} {value : α} {log : List Event}
    (h : p s c = .done value log d) : orElse p handler s c = .done value log d := by
  rw [orElse, h]

/-- Where only the first can succeed, the success is its own. -/
theorem orElse_eq_done {handler : ParseError → Parser α} {value : α} {log : List Event}
    (hhandler : ∀ error value log d, handler error s c ≠ .done value log d)
    (h : orElse p handler s c = .done value log d) : p s c = .done value log d := by
  rw [orElse] at h
  cases hp : p s c with
  | done first earlier e => rwa [hp] at h
  | failed error earlier =>
      simp only [hp] at h
      cases hnext : handler error s c with
      | done first later e => exact absurd hnext (hhandler error first later e)
      | failed error' later => simp [hnext] at h
      | broken fault => simp [hnext, Outcome.after] at h
  | broken fault => simp [hp] at h

namespace Local

/-- A parser that reads so many characters without logging. -/
theorem of_run {value : α} (h : p s c = .done value [] (c.advance n)) (hn : n ≤ c.rest.length)
    (h' : c.advance n ≤ seam.cut →
      p' s (seam.place c) = .done value [] ((seam.place c).advance n)) :
    Local seam s c p p' := by
  intro value' log d hrun
  rw [h] at hrun
  cases hrun
  exact ⟨Cursor.le_advance hn, fun hd => ⟨[], by rw [h' hd, Seam.place_advance hn hd]⟩⟩

/-- A run that fails is compared with nothing. -/
theorem of_failed {error : ParseError} {log : List Event} (h : p s c = .failed error log) :
    Local seam s c p p' := by
  intro value log d hrun
  rw [h] at hrun
  cases hrun

/-- Parsers that never succeed. -/
theorem of_never (h : Returns p fun _ => False) : Local seam s c p p' :=
  fun _ _ _ hrun => (h _ _ _ _ _ hrun).elim

/-- A broken promise is compared with nothing. -/
theorem breakOff (fault : Fault) : Local seam s c (breakOff fault) p' :=
  .of_never fun _ _ _ _ _ hrun => nomatch hrun

/-- Behind the seam the other parser does not matter. -/
theorem of_not_le (hc : ¬ c ≤ seam.cut) (h : Local seam s c p p'') : Local seam s c p p' :=
  fun value log d hrun =>
    have hcd := (h value log d hrun).1
    ⟨hcd, fun hd => absurd (hcd.trans hd) hc⟩

/-- A loop over the rest of the text has a turn left in front of the seam. -/
theorem of_turn {f : Nat → Parser α} {fuel : Nat}
    (hfuel : c ≤ seam.cut → (seam.place c).rest.length < fuel)
    (h : ∀ k, (c ≤ seam.cut → fuel = k + 1) → Local seam s c p (f (k + 1))) :
    Local seam s c p (f fuel) := by
  by_cases hc : c ≤ seam.cut
  · obtain ⟨k, rfl⟩ : ∃ k, fuel = k + 1 := ⟨fuel - 1, by have := hfuel hc; omega⟩
    exact h k fun _ => rfl
  · exact .of_not_le hc (h 0 fun hle => absurd hle hc)

/-- Values do not depend on the gap. -/
theorem pure (value : α) : Local seam s c (Pure.pure value) (Pure.pure value) := by
  rintro value' log d ⟨⟩
  exact ⟨le_rfl, fun _ => ⟨[], rfl⟩⟩

/-- Two parsers in a row do not depend on the gap if, for what the first gives, the second does
not. -/
theorem bind_of (hp : Local seam s c p p')
    (hf : ∀ value log d, p s c = .done value log d → c ≤ d →
      Local seam s d (f value) (f' value)) :
    Local seam s c (p >>= f) (p' >>= f') := by
  intro value log d hrun
  rw [bind_run] at hrun
  obtain ⟨first, earlier, e, later, hfirst, hnext, rfl⟩ := Outcome.andThen_eq_done hrun
  obtain ⟨hce, hfirst'⟩ := hp _ _ _ hfirst
  obtain ⟨hed, hnext'⟩ := hf _ _ _ hfirst hce _ _ _ hnext
  refine ⟨hce.trans hed, fun hd => ?_⟩
  obtain ⟨log', hfirst'⟩ := hfirst' (hed.trans hd)
  obtain ⟨log'', hnext'⟩ := hnext' hd
  exact ⟨log' ++ log'', by rw [bind_run, hfirst', Outcome.andThen_done, hnext', Outcome.after_done]⟩

/-- Two parsers in a row do not depend on the gap if neither does. -/
theorem bind (hp : Local seam s c p p')
    (hf : ∀ value d, c ≤ d → Local seam s d (f value) (f' value)) :
    Local seam s c (p >>= f) (p' >>= f') :=
  hp.bind_of fun value _ d _ => hf value d

/-- What a value is turned into does not depend on the gap. -/
theorem map {g : α → β} (hp : Local seam s c p p') : Local seam s c (g <$> p) (g <$> p') :=
  hp.bind fun value _ _ => .pure (g value)

/-- Where no handler succeeds, only the parser itself does. -/
theorem orElse {handler handler' : ParseError → Parser α}
    (hhandler : ∀ error value log d, handler error s c ≠ .done value log d)
    (hp : Local seam s c p p') : Local seam s c (orElse p handler) (orElse p' handler') := by
  intro value log d hrun
  obtain ⟨hcd, hnext⟩ := hp _ _ _ (orElse_eq_done hhandler hrun)
  refine ⟨hcd, fun hd => ?_⟩
  obtain ⟨log', hnext⟩ := hnext hd
  exact ⟨log', orElse_done hnext⟩

end Local

end

/-! ### Steps that are certain to succeed -/

section

variable {f : γ → Parser α} {f' : γ' → Parser α}

namespace Local

/-- Behind a step that ends at corresponding places, only the rest has to be compared. -/
theorem bind_done {q : Parser γ} {q' : Parser γ'} {value : γ} {value' : γ'} (hcd : c ≤ d)
    (hq : q s c = .done value [] d)
    (hq' : d ≤ seam.cut → q' s (seam.place c) = .done value' [] (seam.place d))
    (h : Local seam s d (f value) (f' value')) : Local seam s c (q >>= f) (q' >>= f') := by
  intro result log e hrun
  rw [Parser.bind_done hq] at hrun
  obtain ⟨hde, hnext⟩ := h _ _ _ hrun
  refine ⟨hcd.trans hde, fun he => ?_⟩
  obtain ⟨log', hnext⟩ := hnext he
  exact ⟨log', by rw [Parser.bind_done (hq' (hde.trans he)), hnext]⟩

/-- Asking for the place gives corresponding places. -/
theorem here_bind {f f' : Cursor → Parser α} (h : Local seam s c (f c) (f' (seam.place c))) :
    Local seam s c (here >>= f) (here >>= f') :=
  .bind_done le_rfl rfl (fun _ => rfl) h

/-- Taking characters leaves only the rest to be compared. -/
theorem take_bind {f f' : Unit → Parser α} (hn : n ≤ c.rest.length)
    (h : Local seam s (c.advance n) (f ()) (f' ())) :
    Local seam s c (take n >>= f) (take n >>= f') := by
  refine .bind_done (Cursor.le_advance hn) (take_run hn) (fun hd => ?_) h
  rw [take_run (Seam.le_length_place hn hd), Seam.place_advance hn hd]

/-- Skipping trivia leaves only the rest to be compared. -/
theorem skipTrivia_bind {f f' : Unit → Parser α}
    (h : Local seam s c.skipTrivia (f ()) (f' ())) :
    Local seam s c (skipTrivia >>= f) (skipTrivia >>= f') := by
  refine .bind_done c.le_skipTrivia skipTrivia_run (fun hd => ?_) h
  rw [skipTrivia_run, Seam.place_skipTrivia hd]

/-- Moving to a place leaves only the rest to be compared. -/
theorem moveTo_bind {f f' : Unit → Parser α} (hcd : c ≤ d)
    (h : Local seam s d (f ()) (f' ())) :
    Local seam s c (moveTo d >>= f) (moveTo (seam.place d) >>= f') :=
  .bind_done hcd rfl (fun _ => rfl) h

/-- Spans do not depend on the gap. -/
theorem span (i j : Nat) : Local seam s c (span i j) (span i j) := by
  intro value log d hrun
  rw [Parser.span] at hrun ⊢
  rcases hspan : Span.between i j with fault | place
  · rw [hspan] at hrun
    cases hrun
  · rw [hspan] at hrun
    cases hrun
    exact ⟨le_rfl, fun _ => ⟨[], rfl⟩⟩

/-- Spans from an offset up to here do not depend on the gap. -/
theorem spanFrom (i : Nat) : Local seam s c (spanFrom i) (spanFrom i) := by
  rw [Parser.spanFrom]
  refine .here_bind ?_
  rw [Seam.place_offset]
  exact .span i c.offset

/-- After a step that leads behind the seam, the other parser does not matter. -/
theorem bind_beyond {q : Parser γ} {value : γ} {p' p'' : Parser α} (hq : q s c = .done value [] d)
    (hcd : c ≤ d) (hd : ¬ d ≤ seam.cut) (h : Local seam s d (f value) p'') :
    Local seam s c (q >>= f) p' := by
  intro result log e hrun
  rw [Parser.bind_done hq] at hrun
  have hde := (h _ _ _ hrun).1
  exact ⟨hcd.trans hde, fun he => absurd (hde.trans he) hd⟩

end Local

end

end Parser

end Mcfunction
