import Mcfunction.Proofs.Returns.Basic
import Mcfunction.Proofs.Scan.Token

/-!
# Tokens without Carriage Returns

No token holds a carriage return that a line feed follows, since no token reaches over a line feed
and none ends in a return. So the recognizers of tokens answer the same when such returns are left
out. Only the fault of a string that is not closed reaches up to the line feed, and takes the return
before it with it: `Error.unix` counts it out.

## Main results

* `word_unix`, `path_unix`, `wholeNumber_unix`, `coordinates_unix`, …: what stands outside quotes.
* `interpolation_unix`, `quoted_unix`: interpolations and strings.
* `returnFree_interpolation`, `returnFree_quoted`: neither holds a return.
-/

namespace Mcfunction.Scan

open Text

variable {chars : List Char} {m n : Nat}

/-! ### Words -/

/-- Words do not depend on returns. -/
theorem word_unix (h : Paired chars) : word (unix chars) = word chars :=
  run?_unix rfl rfl h

/-- Steps along a resource path do not depend on returns. -/
theorem segmentStep_unix (h : Paired chars) : segmentStep (unix chars) = segmentStep chars := by
  refine h.answer_unix (fun _ => rfl) fun c tail _ h => ?_
  by_cases hslash : c = '/'
  · subst hslash
    simp only [segmentStep, run_unix (p := isPathChar) rfl rfl h.of_cons]
  · simp [segmentStep, hslash]

/-- Resource paths do not depend on returns. -/
theorem path_unix (h : Paired chars) : path (unix chars) = path chars := by
  have hrun : run? isPathChar (unix chars) = run? isPathChar chars := run?_unix rfl rfl h
  rw [path, path, hrun]
  rcases hfirst : run? isPathChar chars with _ | first
  · rfl
  · have hfree := (taken_run? hfirst).returnFree rfl
    simp only [hfree.drop_unix,
      repeated_unix_of_taken taken_segmentStep (by decide) (by decide) (fun _ => segmentStep_unix)
        (h.drop first)]

/-- Names of commands do not depend on returns. -/
theorem commandName_unix (h : Paired chars) : commandName (unix chars) = commandName chars := by
  refine h.answer_unix (fun _ => rfl) fun c tail _ h => ?_
  simp only [commandName, run_unix (p := isNameChar) rfl rfl h.of_cons]

/-- Fake players do not depend on returns. -/
theorem fakePlayer_unix (h : Paired chars) : fakePlayer (unix chars) = fakePlayer chars := by
  refine h.answer_unix (fun _ => rfl) fun c tail _ h => ?_
  by_cases hhash : c = '#'
  · subst hhash
    simp only [fakePlayer, run?_unix (p := isPathChar) rfl rfl h.of_cons]
  · simp [fakePlayer, hhash]

/-! ### Numbers and coordinates -/

/-- Minus signs do not depend on returns. -/
theorem minus_unix (h : Paired chars) : minus (unix chars) = minus chars := by
  refine h.answer_unix (fun _ => rfl) fun c tail _ _ => ?_
  by_cases hminus : c = '-'
  · subst hminus
    rfl
  · simp [minus, hminus]

/-- Signs of exponents do not depend on returns. -/
theorem exponentSign_unix (h : Paired chars) : exponentSign (unix chars) = exponentSign chars := by
  refine h.answer_unix (fun _ => rfl) fun c tail _ _ => ?_
  by_cases hplus : c = '+'
  · subst hplus
    rfl
  · by_cases hminus : c = '-'
    · subst hminus
      rfl
    · simp [exponentSign, hplus, hminus]

/-- Runs of digits do not depend on returns. -/
theorem digits_unix (h : Paired chars) : run Char.isDigit (unix chars) = run Char.isDigit chars :=
  run_unix rfl rfl h

/-- Decimals do not depend on returns. -/
theorem decimal_unix (h : Paired chars) : decimal (unix chars) = decimal chars := by
  have hfree := (taken_digits chars).returnFree (by decide)
  have hrest := h.drop (run Char.isDigit chars)
  simp only [decimal, digits_unix h, hfree.drop_unix]
  rcases hrest.cases with hdrop | ⟨tail, hdrop⟩ | ⟨c, tail, hdrop, hc⟩
  · rw [hdrop]
    rfl
  · rw [hdrop]
    rfl
  · rw [hdrop] at hrest ⊢
    rw [unix_cons hc]
    by_cases hpoint : c = '.'
    · subst hpoint
      simp only [digits_unix hrest.of_cons]
    · simp [hpoint]

/-- Exponents do not depend on returns. -/
theorem exponent_unix (h : Paired chars) : exponent (unix chars) = exponent chars := by
  refine h.answer_unix (fun _ => rfl) fun c tail _ h => ?_
  have hsign := (taken_exponentSign tail).returnFree (by decide)
  simp only [exponent, exponentSign_unix h.of_cons, hsign.drop_unix,
    digits_unix (h.of_cons.drop _)]

/-- Numbers do not depend on returns. -/
theorem number_unix (h : Paired chars) : number (unix chars) = number chars := by
  have hsign := (taken_minus chars).returnFree (by decide)
  simp only [number, minus_unix h, hsign.drop_unix, decimal_unix (h.drop _)]
  rcases hdecimal : decimal (chars.drop (minus chars)) with _ | mantissa
  · rfl
  · have hfree := ((taken_minus chars).add (taken_decimal hdecimal)).returnFree (by decide)
    simp only [hfree.drop_unix, exponent_unix (h.drop _)]

/-- Numbers with their type letters do not depend on returns. -/
theorem suffixedNumber_unix (h : Paired chars) :
    suffixedNumber (unix chars) = suffixedNumber chars := by
  simp only [suffixedNumber, number_unix h]
  rcases hnumber : number chars with _ | count
  · rfl
  · simp only [((taken_number hnumber).returnFree (by decide)).drop_unix]
    rcases (h.drop count).cases with hdrop | ⟨tail, hdrop⟩ | ⟨c, tail, hdrop, hc⟩
    · rw [hdrop]
      rfl
    · rw [hdrop]
      rfl
    · rw [hdrop, unix_cons hc]

/-- Whether a number is a whole word does not depend on returns. -/
theorem wholeNumber_unix (h : Paired chars) : wholeNumber (unix chars) = wholeNumber chars := by
  rw [wholeNumber, wholeNumber, suffixedNumber_unix h, word_unix h]

/-- Namespaces do not depend on returns. -/
theorem resourceNamespace_unix (h : Paired chars) :
    resourceNamespace (unix chars) = resourceNamespace chars := by
  rw [resourceNamespace, resourceNamespace, word_unix h, suffixedNumber_unix h]
  rcases hword : word chars with _ | count
  · rfl
  · have hfree := (taken_word hword).returnFree (by decide)
    have hcolon := (h.drop count).head?_beq_unix (x := ':') (by decide) (by decide)
    simp only [hfree.drop_unix, hcolon]

/-- A namespace and the colon after it. -/
theorem returnFree_resourceNamespace (hspace : resourceNamespace chars = some n) :
    ReturnFree chars (n + 1) := by
  obtain ⟨hword, tail, hcolon⟩ := resourceNamespace_eq_some hspace
  refine ((taken_word hword).returnFree (by decide)).add ?_
  rw [hcolon]
  exact .one (by decide)

/-- Behind a namespace, paths do not depend on returns. -/
theorem path_drop_unix (h : Paired chars) (hspace : resourceNamespace chars = some n) :
    path ((unix chars).drop (n + 1)) = path (chars.drop (n + 1)) := by
  rw [(returnFree_resourceNamespace hspace).drop_unix, path_unix (h.drop _)]

/-- Parts of coordinates do not depend on returns. -/
theorem coordinate_unix (h : Paired chars) : coordinate (unix chars) = coordinate chars := by
  refine h.answer_unix (fun _ => rfl) fun c tail hc h => ?_
  have hnumber := suffixedNumber_unix h
  have hsign := (taken_minus tail).returnFree (by decide)
  rw [unix_cons hc] at hnumber
  simp only [coordinate, hnumber, minus_unix h.of_cons, hsign.drop_unix,
    decimal_unix (h.of_cons.drop _)]

/-- Blanks without the return of a line ending, or all blanks up to the line feed. -/
theorem blanks_returnFree_or (h : Paired chars) :
    ReturnFree chars (run isBlank chars) ∨
      ∃ tail, chars.drop (run isBlank chars) = '\n' :: tail := by
  by_cases hnext : (chars.drop (run isBlank chars)).head? = some '\n'
  · exact .inr (List.head?_eq_some_iff.mp hnext)
  · exact .inl ((inline_run rfl chars).returnFree h hnext)

/-- A coordinate part after blanks is found the same, since the line does not end there. -/
theorem coordinate_after_blanks_unix {α : Type} {f f' : Nat → Nat → Option α} (h : Paired chars)
    (hf : ∀ gap part, ReturnFree chars (gap + part) → f' gap part = f gap part) :
    ((run? isBlank (unix chars)).bind fun gap =>
        (coordinate ((unix chars).drop gap)).bind (f' gap)) =
      (run? isBlank chars).bind fun gap => (coordinate (chars.drop gap)).bind (f gap) := by
  have hrun : run isBlank (unix chars) = unixCount chars (run isBlank chars) :=
    run_unix_of_return rfl chars
  have hdrop := unix_drop chars (run isBlank chars)
  rw [run?, run?, hrun]
  rcases blanks_returnFree_or h with hfree | ⟨tail, hline⟩
  · rw [hfree.unixCount_eq]
    generalize run isBlank chars = gap at hfree
    rcases gap with _ | gap
    · rfl
    · simp only [Option.bind_some, hfree.drop_unix, coordinate_unix (h.drop _)]
      refine Option.bind_congr fun part hpart => hf _ _ ?_
      exact hfree.add ((taken_coordinate hpart).returnFree (by decide))
  · -- neither at the line feed nor before it stands a coordinate part
    have hnone : ∀ tail, coordinate ('\n' :: tail) = none := fun tail => rfl
    rw [hline, unix_newline] at hdrop
    generalize run isBlank chars = gap at hline hdrop
    rcases gap with _ | gap
    · rfl
    · generalize unixCount chars (gap + 1) = gap' at hdrop
      rcases gap' with _ | gap'
      · simp only [Option.bind_none, Option.bind_some, hline, hnone]
      · simp only [Option.bind_some, ← hdrop, hline, hnone, Option.bind_none]

/-- Coordinates do not depend on returns. -/
theorem coordinates_unix (h : Paired chars) : coordinates (unix chars) = coordinates chars := by
  have hnext : ∀ {chars m n}, ReturnFree chars (m + n) →
      ((unix chars).drop m).drop n = unix ((chars.drop m).drop n) := by
    intro chars m n hfree
    rw [List.drop_drop, List.drop_drop, hfree.drop_unix]
  simp only [coordinates, Option.bind_eq_bind, coordinate_unix h]
  refine Option.bind_congr fun x hx => ?_
  have hx := (taken_coordinate hx).returnFree (by decide)
  simp only [← List.drop_drop, Nat.add_assoc, hx.drop_unix]
  refine coordinate_after_blanks_unix (h.drop x) fun gap y hy => ?_
  have hrest := ((h.drop x).drop gap).drop y
  simp only [hnext hy]
  refine coordinate_after_blanks_unix hrest fun gap' z hz => ?_
  have hlast := ((hrest.drop gap').drop z).head?_any_unix (p := isPathChar) rfl rfl
  simp only [hnext hz, hlast]

/-- Coordinates hold no return. -/
theorem returnFree_coordinates {parts : Triple (Nat × Nat)} (h : Paired chars)
    (hparts : coordinates chars = some parts) : ReturnFree chars parts.z.2 := by
  have hpart : ∀ {chars gap part}, Paired chars → run? isBlank chars = some gap →
      coordinate (chars.drop gap) = some part → ReturnFree chars (gap + part) := by
    intro chars gap part h hgap hpart
    obtain ⟨rfl, -⟩ := run?_eq_some.mp hgap
    rcases blanks_returnFree_or h with hfree | ⟨tail, hline⟩
    · exact hfree.add ((taken_coordinate hpart).returnFree (by decide))
    · rw [hline] at hpart
      cases hpart
  simp only [coordinates, Option.bind_eq_bind, Option.bind_eq_some_iff] at hparts
  obtain ⟨x, hx, gap, hgap, y, hy, gap', hgap', z, hz, hparts⟩ := hparts
  split at hparts
  · cases hparts
  · cases hparts
    rw [← List.drop_drop] at hy hz
    have hfirst := (taken_coordinate hx).returnFree (by decide)
    have hsecond := hpart (h.drop x) hgap hy
    have hthird := hpart (h.drop _) hgap' hz
    have hall := (hfirst.add hsecond).add (by rwa [← Nat.add_assoc])
    simpa only [Nat.add_assoc] using hall

/-! ### Interpolations and fragments -/

/-- Whether an interpolation starts does not depend on returns. -/
theorem startsInterpolation_unix (h : Paired chars) :
    startsInterpolation (unix chars) = startsInterpolation chars := by
  refine h.answer_unix (fun _ => rfl) fun c tail _ h => ?_
  by_cases hdollar : c = '$'
  · subst hdollar
    refine h.of_cons.answer_unix (f := fun chars => startsInterpolation ('$' :: chars))
      (fun _ => rfl) fun x rest _ _ => ?_
    by_cases hopen : x = '('
    · subst hopen
      rfl
    · simp [startsInterpolation, hopen]
  · simp [startsInterpolation, hdollar]

/-- Where an interpolation is not closed, the fault is all that its line has but the return at
its end. -/
theorem interpolation_of_unclosed {body : List Char}
    (hn : run (fun c => c != ')' && c != '\n') body = n)
    (hopen : ∀ tail, body.drop n ≠ ')' :: tail) (h : Paired body) :
    interpolation ('$' :: '(' :: body) =
      .error ⟨.unterminatedInterpolation, 0, unixCount body n + 2, Nat.zero_le _⟩ := by
  have hline : Inline body n := hn ▸ inline_run rfl body
  have hcount := hline.unixCount_eq h
  rw [interpolation_of_open hn hopen]
  simp only [← hcount, Nat.add_comm 2]

/-- Interpolations do not depend on returns. -/
theorem interpolation_unix (h : Paired chars) (hstart : startsInterpolation chars) :
    interpolation (unix chars) = interpolation chars := by
  obtain ⟨body, rfl⟩ := startsInterpolation_iff.mp hstart
  have hbody : Paired body := h.of_cons.of_cons
  have hrun : run (fun c => c != ')' && c != '\n') (unix body) = _ := run_unix_of_return rfl body
  have hline := inline_run (p := fun c => c != ')' && c != '\n') rfl body
  have hstop : ∀ {x rest}, body.drop (run (fun c => c != ')' && c != '\n') body) = x :: rest →
      (x != ')' && x != '\n') = false := run_stop
  have hdrop := unix_drop body (run (fun c => c != ')' && c != '\n') body)
  generalize hn : run (fun c => c != ')' && c != '\n') body = n at *
  rw [unix_cons (by decide), unix_cons (by decide)]
  by_cases hclose : ∃ tail, body.drop n = ')' :: tail
  · obtain ⟨tail, hclose⟩ := hclose
    have hfree := hline.returnFree hbody (by simp [hclose])
    rw [hfree.unixCount_eq] at hrun hdrop
    rw [hclose, unix_cons (by decide)] at hdrop
    rw [interpolation_of_closed hn hclose, interpolation_of_closed hrun hdrop.symm]
  · have hopen : ∀ tail, (unix body).drop (unixCount body n) ≠ ')' :: tail := by
      intro tail heq
      rw [← hdrop] at heq
      rcases (hbody.drop n).cases with hrest | ⟨rest, hrest⟩ | ⟨x, rest, hrest, hx⟩
      · rw [hrest] at heq
        cases heq
      · exact absurd (hstop hrest) (by decide)
      · rw [hrest, unix_cons hx] at heq
        exact hclose ⟨rest, by rw [hrest, (List.cons.inj heq).1]⟩
    have hcount : unixCount (unix body) (unixCount body n) = unixCount body n := by
      rw [unixCount, ← unix_take, unix_of_notMem (return_notMem_unix _)]
      rfl
    rw [interpolation_of_unclosed hn (fun tail heq => hclose ⟨tail, heq⟩) hbody,
      interpolation_of_unclosed hrun hopen (Paired.of_notMem (return_notMem_unix body)), hcount]

/-- A closed interpolation holds no return. -/
theorem returnFree_interpolation (h : Paired chars) (hstart : startsInterpolation chars)
    (hok : interpolation chars = .ok n) : ReturnFree chars n := by
  obtain ⟨k, tail, rfl, hline, hclose⟩ := interpolation_eq_ok hstart hok
  exact hline.returnFree_succ h hclose (by decide)

/-- The fault of an interpolation that is not closed holds no return. -/
theorem returnFree_interpolation_error {error : Error} (h : Paired chars)
    (hstart : startsInterpolation chars) (herror : interpolation chars = .error error) :
    ReturnFree chars error.stop := by
  obtain ⟨body, rfl⟩ := startsInterpolation_iff.mp hstart
  have hbody : Paired body := h.of_cons.of_cons
  generalize hn : run (fun c => c != ')' && c != '\n') body = n
  by_cases hclose : ∃ tail, body.drop n = ')' :: tail
  · obtain ⟨tail, hclose⟩ := hclose
    rw [interpolation_of_closed hn hclose] at herror
    cases herror
  · rw [interpolation_of_unclosed hn (fun tail heq => hclose ⟨tail, heq⟩) hbody] at herror
    cases herror
    have hline : Inline body n := hn ▸ inline_run rfl body
    exact .cons (by decide) (.cons (by decide) (hline.returnFree_unixCount hbody))

/-- Steps of a fragment do not depend on returns. -/
theorem fragmentStep_unix {inKey : Bool} (h : Paired chars) :
    fragmentStep inKey (unix chars) = fragmentStep inKey chars := by
  refine h.answer_unix (fun _ => rfl) fun c tail hc h => ?_
  have hstart := startsInterpolation_unix h
  have hcontinuation := continuation_unix h
  rw [unix_cons hc] at hstart hcontinuation
  simp only [fragmentStep, hstart, hcontinuation, Option.isSome_map]

/-- Fragments do not depend on returns. -/
theorem fragment_unix {inKey : Bool} (h : Paired chars) :
    fragment inKey (unix chars) = fragment inKey chars := by
  rw [fragment, fragment, repeated_unix_of_taken (taken_fragmentStep inKey) rfl rfl
    (fun _ => fragmentStep_unix) h]

/-! ### Quoted strings -/

/-- The same error in the text without returns. -/
def Error.unix (chars : List Char) (error : Error) : Error :=
  ⟨error.fault, unixCount chars error.start, unixCount chars error.stop,
    unixCount_mono chars error.ordered⟩

/-- An error before the first return stays where it is. -/
theorem Error.unix_of_returnFree {error : Error} (h : ReturnFree chars error.stop) :
    error.unix chars = error := by
  obtain ⟨fault, start, stop, ordered⟩ := error
  simp only [Error.unix, h.unixCount_eq, (h.of_le ordered).unixCount_eq]

/-- Whether a string starts does not depend on returns. -/
theorem startsQuoted_unix (h : Paired chars) : startsQuoted (unix chars) = startsQuoted chars := by
  refine h.answer_unix (fun _ => rfl) fun c tail _ _ => ?_
  by_cases hdouble : c = '"'
  · subst hdouble
    rfl
  · by_cases hsingle : c = '\''
    · subst hsingle
      rfl
    · simp [startsQuoted, hdouble, hsingle]

/-- An interpolation starts with a character that stays, and is the same without returns. -/
theorem interpolation_cons_unix {c : Char} (h : Paired (c :: chars))
    (hstart : startsInterpolation (c :: chars)) :
    c ≠ '\r' ∧ interpolation (c :: unix chars) = interpolation (c :: chars) ∧
      startsInterpolation (c :: unix chars) := by
  have hc : c ≠ '\r' := by
    rintro rfl
    cases hstart
  have hscan := interpolation_unix h hstart
  have hstart' := (startsInterpolation_unix h).trans hstart
  rw [unix_cons hc] at hscan hstart'
  exact ⟨hc, hscan, hstart'⟩

/-- The rest of a string in `text` is read alike when nothing before it is a return. By induction
on the turns of the loop: a return can only come where the line and with it the string ends. -/
theorem quotedFrom_unix {closes : Char → Bool} {before pending : Nat} {interpolated : Bool}
    {text : List Char} (hcloses : closes '\r' = false) (hfree : ReturnFree text before)
    (htext : text.drop before = chars) (hpending : ReturnFree chars pending) (h : Paired chars) :
    quotedFrom closes before interpolated pending (unix chars) =
      (quotedFrom closes before interpolated pending chars).mapError (Error.unix text) := by
  have hslashReturn : '\\' ≠ '\r' := by decide
  fun_induction quotedFrom closes before interpolated pending chars with
  | case1 pending before interpolated =>
      rw [unix_nil, quotedFrom.eq_def, Except.mapError, Error.unix_of_returnFree hfree]
  | case2 before interpolated pending c chars ih =>
      obtain ⟨hc, hpending⟩ := hpending.of_cons
      have hc : c ≠ '\r' := by simpa using hc
      obtain ⟨hfree, htext⟩ := hfree.next htext hc
      rw [unix_cons hc, quotedFrom, ih hfree htext hpending h.of_cons]
  | case3 before interpolated c chars hc =>
      obtain rfl : c = '\n' := by simpa using hc
      rw [unix_newline, quotedFrom.eq_def, Except.mapError, Error.unix_of_returnFree hfree]
      rfl
  | case4 before interpolated c hc hslash | case5 before interpolated c hc hslash
  | case6 before interpolated c hc hslash =>
      obtain rfl : c = '\\' := by simpa using hslash
      have hstop := (hfree.next htext hslashReturn).1
      rw [quotedFrom.eq_def, Except.mapError, Error.unix_of_returnFree hstop]
      rfl
  | case7 before interpolated c chars hne hslash hnil hline hreturn ih =>
      obtain rfl : c = '\\' := by simpa using hslash
      obtain ⟨hfree, htext⟩ := hfree.next htext hslashReturn
      rcases h.of_cons.cases with rfl | ⟨tail, rfl⟩ | ⟨x, tail, rfl, hx⟩
      · exact absurd rfl hnil
      · exact absurd rfl (hreturn tail)
      · rw [unix_cons hslashReturn, ← ih hfree htext (.one (by simpa using hx)) h.of_cons,
          unix_cons hx]
        refine quotedFrom_escape (by simp) (fun rest heq => ?_) (fun rest heq => ?_)
        · obtain rfl := (List.cons.inj heq).1
          exact hline _ rfl
        · exact hx (List.cons.inj heq).1
  | case8 before interpolated c chars hne hslash hstart error herror =>
      obtain ⟨hc, hscan, hstart'⟩ := interpolation_cons_unix h hstart
      have hstop : ReturnFree text (error.shift before).stop :=
        hfree.add (htext ▸ returnFree_interpolation_error h hstart herror)
      rw [unix_cons hc, Except.mapError, Error.unix_of_returnFree hstop]
      simp [quotedFrom, hne, hslash, hstart', hscan, herror]
  | case9 before interpolated c chars hne hslash hstart count hok ih =>
      obtain ⟨hc, hscan, hstart'⟩ := interpolation_cons_unix h hstart
      obtain ⟨hfree, htext⟩ := hfree.next htext hc
      obtain ⟨k, _, rfl, -⟩ := interpolation_eq_ok hstart hok
      have hrest := ih hfree htext (returnFree_interpolation h hstart hok).of_cons.2 h.of_cons
      rw [unix_cons hc, ← hrest]
      simp [quotedFrom, hne, hslash, hstart', hscan, hok]
  | case10 before interpolated c chars hne hslash hstart hc =>
      have hreturn : c ≠ '\r' := by
        rintro rfl
        simp [hcloses] at hc
      have hstart' := startsInterpolation_unix h
      rw [unix_cons hreturn] at hstart' ⊢
      simp [quotedFrom, hne, hslash, hstart', hstart, hc, Except.mapError]
  | case11 before interpolated c chars hne hslash hstart hc ih =>
      by_cases hreturn : c = '\r'
      · -- the line ends, and the fault takes the return with it
        subst hreturn
        obtain ⟨tail, rfl⟩ := h.exists_newline
        have hcount : unixCount text (before + 1) = before := by
          rw [unixCount_add, hfree.unixCount_eq, htext]
          rfl
        rw [unix_return, unix_newline, quotedFrom.eq_def, quotedFrom.eq_def]
        simp [Except.mapError, Error.unix, hcount]
      · obtain ⟨hfree, htext⟩ := hfree.next htext hreturn
        have hrest := ih hfree htext (.zero _ _) h.of_cons
        have hstart' := startsInterpolation_unix h
        rw [unix_cons hreturn] at hstart' ⊢
        rw [← hrest]
        simp [quotedFrom, hne, hslash, hstart', hstart, hc]

/-- A string is read alike, and what is wrong with it is told at the place without returns. -/
theorem quoted_unix (h : Paired chars) (hstart : startsQuoted chars) :
    quoted (unix chars) = (quoted chars).mapError (Error.unix chars) := by
  have hbody : ∀ {quote body}, quote ≠ '\r' → Paired (quote :: body) →
      quoted (unix (quote :: body)) =
        (quoted (quote :: body)).mapError (Error.unix (quote :: body)) := by
    intro quote body hquote h
    rw [unix_cons hquote]
    have hfree : ReturnFree (quote :: body) 1 := .one (by simpa using hquote)
    exact quotedFrom_unix (by simpa using hquote.symm) hfree rfl (.zero _ _) h.of_cons
  obtain ⟨body, rfl | rfl⟩ := startsQuoted_iff.mp hstart
  · exact hbody (by decide) h
  · exact hbody (by decide) h

/-- A quoted string holds no return. -/
theorem returnFree_quoted {q : Quoted} (h : Paired chars) (hstart : startsQuoted chars)
    (hok : quoted chars = .ok q) : ReturnFree chars q.count := by
  have hbody : ∀ {quote body}, quote ≠ '\r' → quote ≠ '\n' → Paired (quote :: body) →
      quoted (quote :: body) = .ok q → ReturnFree (quote :: body) q.count := by
    intro quote body hreturn hnewline h hok
    obtain ⟨k, tail, hbefore, hline, hclose⟩ := quoted_eq_ok hnewline hok
    have hlast : (quote :: body).drop q.before = quote :: tail := by
      rw [hbefore, List.drop_succ_cons, hclose]
    exact hline.returnFree_succ h hlast hreturn
  obtain ⟨body, rfl | rfl⟩ := startsQuoted_iff.mp hstart
  · exact hbody (by decide) (by decide) h hok
  · exact hbody (by decide) (by decide) h hok

/-! ### Interpolated text -/

/-- Whether text with interpolations starts does not depend on returns. -/
theorem startsInterpolated_unix {inKey : Bool} (h : Paired chars) :
    startsInterpolated inKey (unix chars) = startsInterpolated inKey chars := by
  have hreturn : isLeadChar inKey '\r' = false := by cases inKey <;> rfl
  have hnewline : isLeadChar inKey '\n' = false := by cases inKey <;> rfl
  have hfree := (taken_run (isLeadChar inKey) chars).returnFree hreturn
  rw [startsInterpolated, startsInterpolated, startsQuoted_unix h, run_unix hreturn hnewline h,
    hfree.drop_unix, startsInterpolation_unix (h.drop _)]
  split
  · rename_i hquote
    rw [quoted_unix h hquote]
    rcases quoted chars with error | q
    · rfl
    · rfl
  · rfl

/-- The pieces of a key with interpolations do not depend on returns, with enough turns for both. -/
theorem interpolatedKeyPieces_unix {fuel fuel' : Nat} (hfuel : chars.length ≤ fuel)
    (hfuel' : (unix chars).length ≤ fuel') (h : Paired chars) :
    interpolatedKeyPieces fuel' (unix chars) = interpolatedKeyPieces fuel chars := by
  induction fuel generalizing chars fuel' with
  | zero =>
      obtain rfl := List.eq_nil_of_length_eq_zero (Nat.le_zero.mp hfuel)
      cases fuel' <;> rfl
  | succ fuel ih =>
      rcases fuel' with _ | fuel'
      · obtain rfl := h.unix_eq_nil.mp (List.eq_nil_of_length_eq_zero (Nat.le_zero.mp hfuel'))
        rfl
      · have hnext : ∀ {n}, 0 < n → ReturnFree chars n →
            interpolatedKeyPieces fuel' ((unix chars).drop n) =
              interpolatedKeyPieces fuel (chars.drop n) := by
          intro n hpos hfree
          have hlen := hfree.le_length
          have hlen' : n ≤ (unix chars).length := by
            have := unixCount_le_length chars n
            rwa [hfree.unixCount_eq] at this
          rw [hfree.drop_unix]
          refine ih ?_ ?_ (h.drop n)
          · rw [List.length_drop]
            omega
          · rw [← hfree.drop_unix, List.length_drop]
            omega
        rw [interpolatedKeyPieces, interpolatedKeyPieces, startsInterpolation_unix h]
        split
        · rename_i hstart
          rw [interpolation_unix h hstart]
          rcases hscan : interpolation chars with error | count
          · rfl
          · have hpos := (inline_interpolation hstart hscan).1
            simp only [hnext hpos (returnFree_interpolation h hstart hscan)]
        · rw [fragment_unix h]
          rcases hscan : fragment true chars with _ | count
          · rfl
          · simp only [hnext (fragment_pos hscan) ((taken_fragment hscan).returnFree rfl)]

/-- Whether a key has interpolations does not depend on returns. -/
theorem interpolatedKey_unix (h : Paired chars) :
    interpolatedKey (unix chars) = interpolatedKey chars := by
  rw [interpolatedKey, interpolatedKeyPieces_unix (le_refl _) (le_refl _) h, interpolatedKey]

end Mcfunction.Scan
