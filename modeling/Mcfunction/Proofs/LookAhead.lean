import Mcfunction.Proofs.Lines.Scan.Token
import Mcfunction.Proofs.Parser.Container
import Mcfunction.Proofs.Written.Scan

/-!
# Looking Ahead for Pairs

A list holds pairs or values, and which of the two is decided before its first element is read: the
recognizer `Scan.startsPair` looks for a key with an operator behind it. It finds the end of the key
by itself, with one case for each form of key, and so do the parsers that read the key.

`Parser.Follows c p found` says that `p` at `c` does what the answer `found` of a recognizer
foretells: it reads just the characters that are found, and fails if nothing is found. It is proved
along the forms of keys and carried on to the operator.

## Main results

* `Parser.bareFragments_follows`: the pieces of an unquoted key, interpolations left open included.
* `Parser.key_follows`, `Parser.operator_follows`: keys and operators are read as they are found.
* `Parser.pair_foreseen`: what the look ahead tells of pairs, and of the elements of lists.
-/

namespace Mcfunction

namespace Parser

variable {α β : Type} {s : Settings} {c d : Cursor} {p : Parser α} {f : α → Parser β}
  {found : Option Nat} {n : Nat}

/-- `p` at `c` does what the answer of a recognizer foretells, whatever the settings are, and logs
nothing. -/
def Follows (c : Cursor) (p : Parser α) : Option Nat → Prop
  | some n => n ≤ c.rest.length ∧ ∃ value, ∀ s, p s c = .done value [] (c.advance n)
  | none => ∃ error, ∀ s, p s c = .failed error []

namespace Follows

theorem of_done {value : α} (hn : n ≤ c.rest.length)
    (h : ∀ s, p s c = .done value [] (c.advance n)) : Follows c p (some n) :=
  ⟨hn, value, h⟩

theorem of_failed {error : ParseError} (h : ∀ s, p s c = .failed error []) : Follows c p none :=
  ⟨error, h⟩

theorem pure (value : α) : Follows c (Pure.pure value) (some 0) :=
  .of_done (Nat.zero_le _) fun s => by rw [Cursor.advance_zero, pure_run]

theorem here_bind {f : Cursor → Parser β} (h : Follows c (f c) found) :
    Follows c (here >>= f) found := by
  cases found with
  | none =>
      obtain ⟨error, h⟩ := h
      exact .of_failed fun s => by rw [bind_done here_run, h]
  | some n =>
      obtain ⟨hn, value, h⟩ := h
      exact .of_done hn fun s => by rw [bind_done here_run, h]

/-- What follows a step that is certain is foretold from where the step stops. -/
theorem step {value : α} (hn : n ≤ c.rest.length)
    (hp : ∀ s, p s c = .done value [] (c.advance n)) (hf : Follows (c.advance n) (f value) found) :
    Follows c (p >>= f) (found.map (n + ·)) := by
  cases found with
  | none =>
      obtain ⟨error, hf⟩ := hf
      exact .of_failed fun s => by rw [bind_done (hp s), hf]
  | some m =>
      obtain ⟨hm, value', hf⟩ := hf
      rw [Cursor.advance_rest, List.length_drop] at hm
      have hrun : ∀ s, (p >>= f) s c = .done value' [] (c.advance (n + m)) := fun s => by
        rw [bind_done (hp s), hf, Cursor.advance_advance]
      exact .of_done (by omega : n + m ≤ c.rest.length) hrun

/-- A value can be wrapped without moving. -/
theorem wrap (hp : Follows c p found)
    (hf : ∀ value d, c ≤ d → ∃ value', ∀ s, f value s d = .done value' [] d) :
    Follows c (p >>= f) found := by
  cases found with
  | none =>
      obtain ⟨error, hp⟩ := hp
      exact .of_failed fun s => bind_failed (hp s)
  | some n =>
      obtain ⟨hn, value, hp⟩ := hp
      obtain ⟨value', hf⟩ := hf value _ (Cursor.le_advance hn)
      exact .of_done hn fun s => by rw [bind_done (hp s), hf]

theorem bind_pure {g : α → β} (hp : Follows c p found) :
    Follows c (p >>= fun value => Pure.pure (g value)) found :=
  hp.wrap fun value _ _ => ⟨g value, fun _ => rfl⟩

/-- A parser stops just where the recognizer says. -/
theorem eq_some_iff (h : Follows c p found) :
    found = some n ↔ n ≤ c.rest.length ∧ ∃ value log, p s c = .done value log (c.advance n) := by
  cases found with
  | none =>
      obtain ⟨error, h⟩ := h
      refine iff_of_false (by simp) ?_
      rintro ⟨-, value, log, hrun⟩
      cases (h s).symm.trans hrun
  | some m =>
      obtain ⟨hm, value, h⟩ := h
      constructor
      · rintro ⟨⟩
        exact ⟨hm, value, [], h s⟩
      · rintro ⟨hn, _, _, hrun⟩
        obtain ⟨-, -, heq⟩ := Outcome.done.inj ((h s).symm.trans hrun)
        have hlength := congrArg (fun d => d.rest.length) heq
        simp only [Cursor.advance_rest, List.length_drop] at hlength
        rw [Option.some.injEq]
        omega

/-- What follows the look-ahead logs nothing. -/
theorem log_eq_nil {value : α} {log : List Event} (h : Follows c p found)
    (hrun : p s c = .done value log d) : log = [] := by
  cases found with
  | none =>
      obtain ⟨error, h⟩ := h
      cases (h s).symm.trans hrun
  | some n =>
      obtain ⟨-, value', h⟩ := h
      obtain ⟨-, hlog, -⟩ := Outcome.done.inj ((h s).symm.trans hrun)
      exact hlog.symm

end Follows

/-! ### Keys -/

/-- The pieces of an unquoted key. An interpolation that is not closed stops both the look ahead
and the parser. -/
theorem bareFragments_follows {fuel : Nat} (hfuel : c.rest.length < fuel) :
    Follows c (bareFragments true fuel) (Scan.interpolatedKeyPieces c.rest.length c.rest) := by
  induction fuel generalizing c with
  | zero => exact absurd hfuel (Nat.not_lt_zero _)
  | succ fuel ih =>
      -- one unit of fuel more than there are characters finds the same pieces
      rw [← Scan.interpolatedKeyPieces_eq (Nat.le_succ c.rest.length), Scan.interpolatedKeyPieces,
        bareFragments]
      have hnext : ∀ {n}, 0 < n → n ≤ c.rest.length → Follows (c.advance n)
          (bareFragments true fuel) (Scan.interpolatedKeyPieces c.rest.length (c.rest.drop n)) := by
        intro n hpos hn
        have hrest : (c.rest.drop n).length = c.rest.length - n := List.length_drop
        rw [Scan.interpolatedKeyPieces_eq (by omega), ← Cursor.advance_rest]
        exact ih (by rw [Cursor.advance_rest]; omega)
      refine .here_bind ?_
      by_cases hstart : Scan.startsInterpolation c.rest
      · rw [if_pos hstart, if_pos hstart]
        rcases hn : Scan.interpolation c.rest with error | n
        · exact .of_failed fun _ => bind_failed (interpolation_failed hn)
        · obtain ⟨hpos, hline⟩ := Scan.inline_interpolation hstart hn
          exact .step hline.le_length (fun _ => interpolation_run hstart hn)
            (hnext hpos hline.le_length).bind_pure
      · rw [if_neg hstart, if_neg hstart]
        rcases hn : Scan.fragment true c.rest with _ | n
        · exact .pure _
        · have hlen := (Scan.inline_fragment hn).le_length
          exact .step hlen (fun _ => textRun_run hlen)
            (hnext (Scan.fragment_pos hn) hlen).bind_pure

/-- Interpolated text in a key. The look ahead finds no key where there are no pieces, but text that
is announced as interpolated has some. -/
theorem interpolated_follows (hstart : Scan.startsInterpolated true c.rest)
    (hquoted : Scan.startsQuoted c.rest = false) :
    Follows c (interpolated true) (Scan.interpolatedKey c.rest) := by
  have hpieces := bareFragments_follows (Nat.lt_succ_self c.rest.length)
  have hkey : Scan.interpolatedKey c.rest = Scan.interpolatedKeyPieces c.rest.length c.rest := by
    rw [Scan.interpolatedKey]
    rcases hfound : Scan.interpolatedKeyPieces c.rest.length c.rest with _ | _ | n
    · rfl
    · rw [hfound] at hpieces
      obtain ⟨-, fragments, hrun⟩ := hpieces
      have hread := (bareFragments_steady (.refl c) (Nat.lt_succ_self _)).post_of_run
        (hrun ⟨0, .strict⟩)
      rw [Cursor.advance_zero] at hread
      exact absurd (lt_of_startsInterpolated hstart hquoted hread) (lt_irrefl c)
    · rfl
  rw [hkey, interpolated]
  refine .here_bind ?_
  rw [hquoted, if_neg Bool.false_ne_true]
  refine hpieces.wrap fun fragments d hcd => ⟨⟨fragments, .bare, c.spanTo d⟩, fun s => ?_⟩
  rw [bind_done (spanFrom_run hcd)]
  rfl

/-- What is not expected fails, as foretold. -/
theorem unexpected_follows (wanted : Wanted) : Follows c (unexpected wanted : Parser α) none := by
  by_cases hline : Scan.atLineEnd c.rest
  · exact .of_failed fun _ => unexpected_run_atLineEnd hline
  · rcases hrest : c.rest with _ | ⟨x, tail⟩
    · rw [hrest] at hline
      exact absurd rfl hline
    · rw [hrest] at hline
      exact .of_failed fun _ => unexpected_run (Cursor.peek_of_cons hrest)
        (by simpa [Scan.atLineEnd] using hline)

/-- A key is read as the look ahead finds it. -/
theorem key_follows (c : Cursor) : Follows c key (Scan.pairKey c.rest) := by
  rw [key, Scan.pairKey]
  refine .here_bind ?_
  by_cases hquoted : Scan.startsQuoted c.rest
  · rw [if_pos hquoted]
    rcases hq : Scan.quoted c.rest with error | q
    · have hstart : Scan.startsInterpolated true c.rest = false := by
        rw [Scan.startsInterpolated, if_pos hquoted, hq]
      rw [hstart, if_neg Bool.false_ne_true, if_pos hquoted]
      exact .of_failed fun _ => bind_failed (quotedString_failed hq)
    · have hlen := (Scan.inline_quoted hquoted hq).le_length
      split
      · obtain ⟨fragments, -, hrun⟩ := interpolated_quoted_run hquoted hq
        exact (Follows.of_done hlen hrun).bind_pure
      · exact (Follows.of_done hlen fun _ => quotedString_run hquoted hq).bind_pure
  · rw [if_neg hquoted, if_neg hquoted]
    rw [Bool.not_eq_true] at hquoted
    by_cases hstart : Scan.startsInterpolated true c.rest
    · rw [if_pos hstart, if_pos hstart]
      exact (interpolated_follows hstart hquoted).bind_pure
    · rw [if_neg hstart, if_neg hstart]
      rcases hword : Scan.word c.rest with _ | n
      · exact unexpected_follows .key
      · have hlen := (Scan.inline_word hword).le_length
        exact (Follows.of_done hlen fun _ => bareString_run hlen).bind_pure

/-! ### Operators -/

theorem isOperator_iff {x : Char} : Scan.isOperator x ↔ x = '=' ∨ x = '~' ∨ x = ':' := by
  rw [← Bool.not_eq_false, Scan.isOperator_eq_false]
  simp only [ne_eq, not_and_or, not_not]

/-- The operator is as long as foretold. -/
theorem operator_follows (c : Cursor) :
    Follows c operator (if c.peek.any Scan.isOperator then some 1 else none) := by
  have hfound : c.peek.any Scan.isOperator = (c.peek.bind PairOperator.ofChar?).isSome := by
    cases c.peek <;> rfl
  rw [operator, hfound]
  refine .here_bind ?_
  rcases hoperator : c.peek.bind PairOperator.ofChar? with _ | op
  · obtain ⟨d, hcd, hend⟩ := c.exists_charEnd
    have hle : c.offset ≤ c.charEnd := hend ▸ Cursor.offset_le_of_le hcd
    refine .of_failed fun _ => failAt_run ?_
    split
    · exact le_rfl
    · exact hle
  · obtain ⟨x, hpeek, -⟩ := Option.bind_eq_some_iff.mp hoperator
    have hone := Cursor.length_pos_of_peek hpeek
    exact (Follows.of_done hone fun _ => take_run hone).bind_pure

/-- Behind the key that is found, the look ahead goes on with the character that is not trivia. -/
theorem startsPair_eq (hfound : Scan.pairKey c.rest = some n) :
    Scan.startsPair c.rest = (c.advance n).skipTrivia.peek.any Scan.isOperator := by
  rw [Scan.startsPair, hfound, Cursor.peek, Cursor.skipTrivia, Cursor.advance_rest,
    Cursor.advance_rest]

/-! ### Pairs -/

/-- A key stands at `c` with an operator behind it; the value of the pair is to follow at `d`. -/
def HeadAt (s : Settings) (c d : Cursor) : Prop :=
  ∃ name log e x, key s c = .done name log e ∧ e.skipTrivia.peek = some x ∧
    (x = '=' ∨ x = '~' ∨ x = ':') ∧ d = (e.skipTrivia.advance 1).skipTrivia

/-- The look-ahead for a pair finds one if and only if a key and an operator are parsed. -/
theorem startsPair_iff_headAt : Scan.startsPair c.rest ↔ ∃ d, HeadAt s c d := by
  have hkey := key_follows c
  rcases hfound : Scan.pairKey c.rest with _ | n
  · rw [hfound] at hkey
    obtain ⟨error, hkey⟩ := hkey
    rw [Scan.startsPair, hfound]
    refine iff_of_false Bool.false_ne_true ?_
    rintro ⟨_, _, _, _, _, hrun, -⟩
    cases (hkey s).symm.trans hrun
  · rw [hfound] at hkey
    obtain ⟨-, name, hkey⟩ := hkey
    rw [startsPair_eq hfound, Option.any_eq_true]
    constructor
    · rintro ⟨x, hpeek, hx⟩
      exact ⟨_, name, [], _, x, hkey s, hpeek, isOperator_iff.mp hx, rfl⟩
    · rintro ⟨_, _, _, _, x, hrun, hpeek, hx, -⟩
      obtain ⟨-, -, rfl⟩ := Outcome.done.inj ((hkey s).symm.trans hrun)
      exact ⟨x, hpeek, isOperator_iff.mpr hx⟩

/-- Behind a key and an operator, a pair fails just as its value does. -/
theorem HeadAt.pair_failed_iff {value : Parser NbtValue} {error : ParseError} {log : List Event}
    (h : HeadAt s c d) : pair value s c = .failed error log ↔ value s d = .failed error log := by
  obtain ⟨name, log', e, x, hkey, hpeek, hx, rfl⟩ := h
  obtain rfl := (key_follows c).log_eq_nil hkey
  have hoperator := operator_follows e.skipTrivia
  rw [if_pos (by simpa [hpeek] using isOperator_iff.mpr hx)] at hoperator
  obtain ⟨-, op, hoperator⟩ := hoperator
  rw [pair, bind_done here_run, bind_done hkey, bind_done skipTrivia_run, bind_done (hoperator s),
    bind_done skipTrivia_run]
  exact Still.bind_failed_iff fun _ => (Still.spanFrom _).bind fun _ => .pure _

/-- A pair that is not foreseen fails before its value, whatever reads the value. -/
theorem pair_failed_of_not_startsPair (h : Scan.startsPair c.rest = false) :
    ∃ error, ∀ value, pair value s c = .failed error [] := by
  have hkey := key_follows c
  rcases hfound : Scan.pairKey c.rest with _ | n
  · rw [hfound] at hkey
    obtain ⟨error, hkey⟩ := hkey
    exact ⟨error, fun value => by rw [pair, bind_done here_run, bind_failed (hkey s)]⟩
  · have hoperator := operator_follows (c.advance n).skipTrivia
    rw [← startsPair_eq hfound, h] at hoperator
    rw [hfound] at hkey
    obtain ⟨-, name, hkey⟩ := hkey
    obtain ⟨error, hoperator⟩ := hoperator
    exact ⟨error, fun value => by
      rw [pair, bind_done here_run, bind_done (hkey s), bind_done skipTrivia_run,
        bind_failed (hoperator s)]⟩

/-! ### Lists -/

/-- The look-ahead finds no pair at the end of the line or of the list. -/
theorem startsPair_eq_false {chars : List Char}
    (h : Scan.atLineEnd chars ∨ chars.head? = some ']') : Scan.startsPair chars = false := by
  rcases chars with _ | ⟨x, tail⟩
  · rfl
  · have hx : x = '\n' ∨ x = ']' := by simpa [Scan.atLineEnd] using h
    rcases hx with rfl | rfl <;> rfl

/-- The elements of a list are pairs just if a pair is foreseen behind its bracket. -/
theorem listOf_items {value : Parser NbtValue} {list : NbtList} {log : List Event}
    (hpeek : c.peek = some '[') (hrun : listOf value s c = .done list log d) :
    if Scan.startsPair (c.advance 1).skipTrivia.rest then ∃ pairs, list.items = .pairs pairs
    else ∃ values, list.items = .values values := by
  rw [listOf, bind_done here_run, bind_done (take_run (Cursor.length_pos_of_peek hpeek)),
    bind_done skipTrivia_run, bind_done here_run] at hrun
  generalize (c.advance 1).skipTrivia = content at hrun ⊢
  by_cases hclose : content.peek = some ']'
  · rw [startsPair_eq_false (.inr hclose), if_neg Bool.false_ne_true]
    rw [if_pos (by simpa using hclose)] at hrun
    suffices hempty : Returns _ fun list : NbtList => ∃ values, list.items = .values values from
      hempty _ _ _ _ _ hrun
    exact .andThen fun _ => .andThen fun _ => .pure ⟨[], rfl⟩
  · rw [if_neg (by simpa using hclose)] at hrun
    split
    · rename_i hstart
      rw [if_pos hstart, map_bind] at hrun
      suffices hpairs : Returns _ fun list : NbtList => ∃ pairs, list.items = .pairs pairs from
        hpairs _ _ _ _ _ hrun
      exact .andThen fun _ => .andThen fun pairs => .andThen fun _ => .pure ⟨pairs, rfl⟩
    · rename_i hstart
      rw [if_neg hstart, map_bind] at hrun
      suffices hvalues : Returns _ fun list : NbtList => ∃ values, list.items = .values values from
        hvalues _ _ _ _ _ hrun
      exact .andThen fun _ => .andThen fun values => .andThen fun _ => .pure ⟨values, rfl⟩

/-- A list of pairs fails where the value of its first pair fails. -/
theorem listOf_failed {value : Parser NbtValue} {error : ParseError} {log : List Event}
    (hpeek : c.peek = some '[') (hhead : HeadAt s (c.advance 1).skipTrivia d)
    (hvalue : value s d = .failed error log) : listOf value s c = .failed error log := by
  have hstart := startsPair_iff_headAt.mpr ⟨d, hhead⟩
  have hpair := hhead.pair_failed_iff.mpr hvalue
  rw [listOf, bind_done here_run, bind_done (take_run (Cursor.length_pos_of_peek hpeek)),
    bind_done skipTrivia_run, bind_done here_run]
  generalize (c.advance 1).skipTrivia = content at hstart hpair ⊢
  have hnot : ¬ (Scan.atLineEnd content.rest ∨ content.peek = some ']') := fun h =>
    Bool.false_ne_true ((startsPair_eq_false h).symm.trans hstart)
  obtain ⟨hline, hclose⟩ := not_or.mp hnot
  have hcontent : expectContent .square c s content = .done () [] content := by
    rw [expectContent, bind_done here_run, if_neg hline]
    rfl
  rw [if_neg (by simpa using hclose), bind_done hcontent, if_pos hstart, map_bind, elements]
  exact bind_failed (bind_failed hpair)

/-! ### What is foreseen -/

/-- What looking ahead from `c` tells of the parsers, whatever the settings and the parser of values
are. -/
structure Foreseen (s : Settings) (c : Cursor) : Prop where
  /-- A pair is foreseen just if a key is read and an operator stands behind it, trivia apart. -/
  startsPair_iff : Scan.startsPair c.rest ↔ ∃ name log d x, key s c = .done name log d ∧
    d.skipTrivia.peek = some x ∧ (x = '=' ∨ x = '~' ∨ x = ':')
  /-- A key ends where the look ahead finds its end, and is found just if it is read. -/
  pairKey_iff : ∀ n, Scan.pairKey c.rest = some n ↔
    n ≤ c.rest.length ∧ ∃ name log, key s c = .done name log (c.advance n)
  /-- A pair that is foreseen fails only in its value, wherever that leads. -/
  pair_failed_iff : Scan.startsPair c.rest → ∃ d, HeadAt s c d ∧ ∀ value error log,
    pair value s c = .failed error log ↔ value s d = .failed error log
  /-- Any other pair fails without a look at its value. -/
  pair_failed : Scan.startsPair c.rest = false → ∃ error, ∀ value, pair value s c = .failed error []
  /-- A list of pairs starts with a pair that is foreseen. -/
  pairs : ∀ {value list log d pairs}, c.peek = some '[' → listOf value s c = .done list log d →
    list.items = .pairs pairs → Scan.startsPair (c.advance 1).skipTrivia.rest
  /-- A list of values does not start with a key and an operator. -/
  values : ∀ {value list log d values}, c.peek = some '[' → listOf value s c = .done list log d →
    list.items = .values values → ∀ e, ¬ HeadAt s (c.advance 1).skipTrivia e
  /-- A list that starts with a key and an operator fails where the value behind them fails. -/
  list_failed : ∀ {value d error log}, c.peek = some '[' → HeadAt s (c.advance 1).skipTrivia d →
    value s d = .failed error log → listOf value s c = .failed error log

/-- Looking ahead for a pair agrees with reading it, at every place of a text. -/
theorem pair_foreseen (s : Settings) (c : Cursor) : Foreseen s c where
  startsPair_iff := by
    rw [startsPair_iff_headAt (s := s)]
    constructor
    · rintro ⟨_, name, log, d, x, hkey, hpeek, hx, -⟩
      exact ⟨name, log, d, x, hkey, hpeek, hx⟩
    · rintro ⟨name, log, d, x, hkey, hpeek, hx⟩
      exact ⟨_, name, log, d, x, hkey, hpeek, hx, rfl⟩
  pairKey_iff := fun _ => (key_follows c).eq_some_iff
  pair_failed_iff := by
    intro hstart
    obtain ⟨d, hhead⟩ := startsPair_iff_headAt.mp hstart
    exact ⟨d, hhead, fun _ _ _ => hhead.pair_failed_iff⟩
  pair_failed := pair_failed_of_not_startsPair
  pairs := by
    intro value list log d pairs hpeek hrun hpairs
    have hitems := listOf_items hpeek hrun
    split at hitems
    · assumption
    · obtain ⟨values, hvalues⟩ := hitems
      cases hpairs.symm.trans hvalues
  values := by
    intro value list log d values hpeek hrun hvalues e hhead
    have hitems := listOf_items hpeek hrun
    rw [if_pos (startsPair_iff_headAt.mpr ⟨e, hhead⟩)] at hitems
    obtain ⟨pairs, hpairs⟩ := hitems
    cases hvalues.symm.trans hpairs
  list_failed := listOf_failed

-- An interpolation that is left open makes no key.
example : Scan.startsPair "a$(b)c : 1".toList = true ∧
    Scan.startsPair "a$(b : 1".toList = false := by
  decide

end Parser

end Mcfunction
