import Mcfunction.Proofs.Octets.Token

/-!
# Text of Any Characters in Bytes

Statements, comments, fragments, interpolations and strings may hold wide characters. A recognizer
that is run on the bytes steps into such a character, but all that ends the text is narrow: it goes
on to the end of the character and stops where the characters are found to stop. An escape may take
the first byte of a character only; the other bytes belong to the string all the same.

## Main results

* `continuation_octets`, `trivia_octets`, `commentTag_octets`: what is narrow here, too.
* `aligned_statement`, `aligned_commentText`, `aligned_fragment`: the same text is taken.
* `agree_interpolation`, `agree_quoted`: the same text is taken, or the same error is found.
-/

namespace Mcfunction.Scan

variable {chars tail : List Char} {x : Char} {n bytes : Nat}

/-! ### Continuations and trivia -/

/-- A continuation is narrow. -/
theorem narrow_continuation (h : continuation chars = some n) : Narrow chars n := by
  obtain ⟨gap, tail, rfl, hgap, rfl⟩ := continuation_eq_some h
  have hgap : Narrow (gap ++ '\n' :: tail) gap.length :=
    ⟨by simp, fun c hc => isNarrow_of_isBlank (hgap c (by simpa using hc))⟩
  have hline : Narrow ((gap ++ '\n' :: tail).drop gap.length) 1 := by
    rw [List.drop_left]
    exact .one rfl
  exact .cons rfl (hgap.add hline)

/-- A wide character starts no continuation. -/
theorem continuation_of_wide (hx : isNarrow x = false) : continuation (x :: tail) = none := by
  have hslash := ne_of_wide (y := '\\') hx rfl
  simp [continuation, hslash]

/-- Behind the blanks, a continuation goes on with a line break of one of two forms. -/
theorem continuation_slash (tail : List Char) : continuation ('\\' :: tail) =
    let blanks := run (fun c => c == ' ' || c == '\t') tail
    if ['\n'] <+: tail.drop blanks then some (blanks + 2)
    else if ['\r', '\n'] <+: tail.drop blanks then some (blanks + 3) else none := by
  rw [continuation]
  dsimp only
  split
  · rename_i rest hdrop
    rw [hdrop, if_pos ⟨rest, rfl⟩]
  · rename_i rest hdrop
    rw [hdrop, if_neg (by simp), if_pos ⟨rest, rfl⟩]
  · rename_i hline hreturn
    rw [if_neg, if_neg]
    · rintro ⟨rest, hrest⟩
      exact hreturn rest hrest.symm
    · rintro ⟨rest, hrest⟩
      exact hline rest hrest.symm

/-- A continuation is told by the bytes. -/
theorem continuation_octets (chars : List Char) :
    continuation (octets chars) = continuation chars := by
  refine answer_octets (fun x tail hx => continuation_of_wide hx) (fun x tail _ => ?_) chars
  by_cases hslash : x = '\\'
  · subst hslash
    have hblank : ∀ x : Char, (x == ' ' || x == '\t') → isNarrow x := by
      intro x hx
      exact isNarrow_of_isBlank (by simp [isBlank, hx])
    have hblanks := (taken_run (fun c => c == ' ' || c == '\t') tail).narrow hblank
    have hline : ['\n'].all isNarrow := rfl
    have hreturn : ['\r', '\n'].all isNarrow := rfl
    simp only [continuation_slash, run_octets hblank, hblanks.drop_octets,
      prefix_octets_iff hline, prefix_octets_iff hreturn]
  · simp [continuation, hslash]

/-- A turn of trivia is told by the bytes. -/
theorem triviaStep_octets (chars : List Char) : triviaStep (octets chars) = triviaStep chars := by
  refine answer_octets (fun x tail hx => ?_) (fun x tail hx => ?_) chars
  · simp [triviaStep, eq_false_of_wide (fun _ => isNarrow_of_isBlank) hx, continuation_of_wide hx]
  · have hcontinuation := continuation_octets (x :: tail)
    rw [octets_cons hx] at hcontinuation
    simp only [triviaStep, hcontinuation]

/-- A turn of trivia is narrow. -/
theorem narrow_triviaStep (chars : List Char) : Narrow chars (triviaStep chars) := by
  rcases chars with _ | ⟨x, tail⟩
  · exact .zero _ _
  · rw [triviaStep]
    split
    · exact .one (isNarrow_of_isBlank ‹_›)
    · rcases hn : continuation (x :: tail) with _ | n
      · exact .zero _ _
      · exact narrow_continuation hn

/-- Trivia are told by the bytes. -/
theorem trivia_octets (chars : List Char) : trivia (octets chars) = trivia chars :=
  repeated_octets narrow_triviaStep triviaStep_octets chars

/-- Trivia are narrow. -/
theorem narrow_trivia (chars : List Char) : Narrow chars (trivia chars) :=
  taken_repeated narrow_triviaStep chars

/-! ### Statements and comments -/

/-- A statement ends at the same place by bytes and by characters. -/
theorem aligned_statement (chars : List Char) :
    Aligned chars (statement (octets chars)) (statement chars) := by
  refine aligned_repeated 1 statementStep_le_length (fun x tail hx => ?_) le_rfl
    (fun x tail hx => ?_) chars
  · simp [statementStep, ne_of_wide (y := '\n') hx rfl, continuation_of_wide hx]
  · have hcontinuation := continuation_octets (x :: tail)
    rw [octets_cons hx] at hcontinuation
    rw [statementStep, statementStep, hcontinuation]
    split
    · exact .zero _
    · rcases hn : continuation (x :: tail) with _ | n
      · exact .cons_narrow hx (.zero _)
      · exact (narrow_continuation hn).aligned

/-- The text of a comment ends at the same place by bytes and by characters. -/
theorem aligned_commentText (chars : List Char) :
    Aligned chars (commentText (octets chars)) (commentText chars) := by
  have h := aligned_statement chars
  simp only [commentText, beq_iff_eq, h.take_octets, getLast?_octets (x := '\r') rfl]
  split
  · exact h.pred ‹_› rfl
  · exact h

/-- Characters of tags are narrow. -/
theorem isNarrow_of_isTagChar (h : isTagChar x) : isNarrow x := by
  simp only [isTagChar, Bool.or_eq_true, beq_iff_eq] at h
  rcases h with ((rfl | rfl) | rfl) | rfl <;> rfl

/-- The tag of a comment is narrow. -/
theorem narrow_commentTag (chars : List Char) : Narrow chars (commentTag chars).1 :=
  (taken_commentTag chars).narrow fun _ => isNarrow_of_isTagChar

/-- The tag of a comment is told by the bytes. -/
theorem commentTag_octets (chars : List Char) : commentTag (octets chars) = commentTag chars := by
  have hsame : ∀ mark, isNarrow mark → ∀ x : Char, (x == mark) → isNarrow x := by
    intro mark hmark x hx
    rwa [beq_iff_eq.mp hx]
  have hhashes := (taken_run (· == '#') chars).narrow (hsame '#' rfl)
  simp only [commentTag, run_octets (hsame '#' rfl), hhashes.drop_octets]
  generalize chars.drop (run (· == '#') chars) = rest
  rcases octets_cases rest with rfl | ⟨x, tail, y, more, rfl, hoctets, hx, hy⟩ |
    ⟨x, tail, rfl, hoctets, hx⟩
  · rfl
  · have hmark : ∀ {x}, isNarrow x = false → (x == '!' || x == '@' || x == '>') = false := by
      intro x hx
      simp [ne_of_wide (y := '!') hx rfl, ne_of_wide (y := '@') hx rfl,
        ne_of_wide (y := '>') hx rfl]
    simp [hoctets, hmark hx, hmark hy]
  · simp only [hoctets, run_octets (hsame x hx)]

/-! ### Interpolations and fragments -/

/-- Whether an interpolation starts is told by the bytes. -/
theorem startsInterpolation_octets (chars : List Char) :
    startsInterpolation (octets chars) = startsInterpolation chars := by
  have hprefix : ∀ chars, startsInterpolation chars ↔ ['$', '('] <+: chars := fun chars =>
    startsInterpolation_iff.trans (exists_congr fun _ => eq_comm)
  rw [Bool.eq_iff_iff, hprefix, hprefix]
  exact prefix_octets_iff rfl

/-- What ends fragments is narrow. -/
theorem isNarrow_of_endsFragment (h : endsFragment x) : isNarrow x := by
  unfold endsFragment at h
  split at h <;> first | rfl | cases h

/-- What ends fragments of keys is narrow. -/
theorem isNarrow_of_endsKeyFragment (h : endsKeyFragment x) : isNarrow x := by
  unfold endsKeyFragment at h
  split at h <;> first | rfl | cases h

/-- Steps of a fragment end at the same place by bytes and by characters. -/
theorem aligned_repeated_fragmentStep (inKey : Bool) (chars : List Char) :
    Aligned chars (repeated (fragmentStep inKey) 0 (octets chars))
      (repeated (fragmentStep inKey) 0 chars) := by
  refine aligned_repeated 1 (fun chars => (inline_fragmentStep inKey chars).le_length)
    (fun x tail hx => ?_) le_rfl (fun x tail hx => ?_) chars
  · have hdollar := ne_of_wide (y := '$') hx rfl
    simp [fragmentStep, eq_false_of_wide (fun _ => isNarrow_of_endsFragment) hx,
      eq_false_of_wide (fun _ => isNarrow_of_endsKeyFragment) hx, continuation_of_wide hx,
      startsInterpolation, hdollar]
  · have hcontinuation := continuation_octets (x :: tail)
    have hstart := startsInterpolation_octets (x :: tail)
    rw [octets_cons hx] at hcontinuation hstart
    rw [fragmentStep, fragmentStep, hcontinuation, hstart]
    split
    · exact .zero _
    · exact .cons_narrow hx (.zero _)

/-- A fragment ends at the same place by bytes and by characters. -/
theorem aligned_fragment (inKey : Bool) (chars : List Char) :
    Option.Rel (Aligned chars) (fragment inKey (octets chars)) (fragment inKey chars) := by
  have h := aligned_repeated_fragmentStep inKey chars
  rw [fragment, fragment]
  rcases hn : repeated (fragmentStep inKey) 0 chars with _ | n
  · rw [hn] at h
    rw [← h.byteWidth_take]
    exact .none
  · rw [hn] at h
    obtain ⟨bytes, hbytes⟩ := Nat.exists_eq_add_of_lt ((Nat.succ_pos n).trans_le h.count_le)
    rw [Nat.zero_add] at hbytes
    rw [hbytes] at h ⊢
    exact .some h

/-! ### Answers with an error -/

/-- Two answers, the first of them about bytes: both tell of the same text, or of the same error at
the same place. -/
inductive Agree {α β : Type} (chars : List Char) (same : α → β → Prop) :
    Except Error α → Except Error β → Prop
  /-- Both tell of text. -/
  | ok {found : α} {found' : β} : same found found' → Agree chars same (.ok found) (.ok found')
  /-- Both tell of an error. -/
  | error {error error' : Error} : error.fault = error'.fault →
      Aligned chars error.start error'.start → Aligned chars error.stop error'.stop →
      Agree chars same (.error error) (.error error')

/-- Bytes and characters agree on an interpolation and on what is wrong with it. -/
theorem agree_interpolation (hstart : startsInterpolation chars) :
    Agree chars (Aligned chars) (interpolation (octets chars)) (interpolation chars) := by
  obtain ⟨body, rfl⟩ := startsInterpolation_iff.mp hstart
  have hrun : Aligned body _ (run (fun c => c != ')' && c != '\n') body) :=
    aligned_run true (fun x hx => by
      simp [ne_of_wide (y := ')') hx rfl, ne_of_wide (y := '\n') hx rfl]) body
  generalize hn : run (fun c => c != ')' && c != '\n') body = n at hrun
  generalize hbytes : run (fun c => c != ')' && c != '\n') (octets body) = bytes at hrun
  have hopener : ∀ {bytes n}, Aligned body bytes n →
      Aligned ('$' :: '(' :: body) (bytes + 2) (n + 2) := fun h =>
    .cons_narrow rfl (.cons_narrow rfl h)
  rw [octets_cons rfl, octets_cons rfl]
  by_cases hclose : ∃ tail, body.drop n = ')' :: tail
  · obtain ⟨tail, hclose⟩ := hclose
    have hclose' : (octets body).drop bytes = ')' :: octets tail := by
      rw [hrun.drop_octets, hclose, octets_cons rfl]
    have hone : Aligned (body.drop n) 1 1 := by
      rw [hclose]
      exact .cons_narrow rfl (.zero tail)
    rw [interpolation_of_closed hn hclose, interpolation_of_closed hbytes hclose']
    exact .ok (hopener (hrun.add hone))
  · have hopen : ∀ tail, body.drop n ≠ ')' :: tail := fun tail h => hclose ⟨tail, h⟩
    have hopen' : ∀ tail, (octets body).drop bytes ≠ ')' :: tail := fun tail h =>
      hclose (exists_of_octets rfl (hrun.drop_octets.symm.trans h))
    rw [interpolation_of_open hn hopen, interpolation_of_open hbytes hopen']
    refine .error rfl (.zero _) ?_
    simp only [hrun.take_octets, beq_iff_eq, getLast?_octets (x := '\r') rfl, Nat.add_comm 2]
    split
    · exact hopener (hrun.pred ‹_› rfl)
    · exact hopener hrun

/-! ### Quoted strings -/

/-- Two strings that are the same text, the first of them in bytes. -/
def Alike (chars : List Char) (quoted quoted' : Quoted) : Prop :=
  Aligned chars quoted.count quoted'.count ∧ quoted.interpolated = quoted'.interpolated

section Quoted

variable {closes : Char → Bool} {interpolated : Bool} {before : Nat}

/-- A character inside quotes closes the string or belongs to it. -/
theorem quotedFrom_char (hline : x ≠ '\n') (hslash : x ≠ '\\')
    (hstart : startsInterpolation (x :: tail) = false) :
    quotedFrom closes before interpolated 0 (x :: tail) =
      if closes x then .ok ⟨before, interpolated⟩
      else quotedFrom closes (before + 1) interpolated 0 tail := by
  rw [quotedFrom.eq_def]
  simp [hline, hslash, hstart]

/-- An escape takes the character after it, unless the line ends there. -/
theorem quotedFrom_escape_cons (hline : x ≠ '\n')
    (hreturn : x ≠ '\r' ∨ ∀ rest, tail ≠ '\n' :: rest) :
    quotedFrom closes before interpolated 0 ('\\' :: x :: tail) =
      quotedFrom closes (before + 2) interpolated 0 tail := by
  rw [quotedFrom_escape (List.cons_ne_nil x tail) (fun rest h => hline (List.cons.inj h).1),
    quotedFrom_pending (Nat.le_add_left 1 _), List.drop_succ_cons, List.drop_zero]
  intro rest h
  obtain ⟨hx, htail⟩ := List.cons.inj h
  exact hreturn.elim (fun hne => hne hx) fun hne => hne rest htail

/-- A string takes an interpolation as a unit. -/
theorem quotedFrom_interpolation (hstart : startsInterpolation chars)
    (hok : interpolation chars = .ok n) :
    quotedFrom closes before interpolated 0 chars =
      quotedFrom closes (before + n) true 0 (chars.drop n) := by
  obtain ⟨k, -, rfl, hline, -⟩ := interpolation_eq_ok hstart hok
  obtain ⟨body, rfl⟩ := startsInterpolation_iff.mp hstart
  rw [quotedFrom.eq_def]
  simp only [Char.reduceBEq, Bool.false_eq_true, if_false, hstart, if_true, hok]
  have hcount : before + 1 + (k + 2) = before + (k + 3) := by omega
  rw [show k + 3 - 1 = k + 2 from rfl, quotedFrom_pending hline.of_cons.le_length, hcount]
  rfl

/-- What is wrong with an interpolation is wrong with the string around it. -/
theorem quotedFrom_interpolation_error {error : Error} (hstart : startsInterpolation chars)
    (herror : interpolation chars = .error error) :
    quotedFrom closes before interpolated 0 chars = .error (error.shift before) := by
  obtain ⟨body, rfl⟩ := startsInterpolation_iff.mp hstart
  rw [quotedFrom.eq_def]
  simp [hstart, herror]

variable (hcloses : ∀ x, isNarrow x = false → closes x = false)

include hcloses

/-- Wide characters belong to the string, and so do their bytes. -/
theorem quotedFrom_append_wide {front : List Char} (hfront : ∀ x ∈ front, isNarrow x = false) :
    quotedFrom closes before interpolated 0 (front ++ tail) =
      quotedFrom closes (before + front.length) interpolated 0 tail := by
  induction front generalizing before with
  | nil => rfl
  | cons x front ih =>
      obtain ⟨hx, hfront⟩ := List.forall_mem_cons.mp hfront
      have hdollar := ne_of_wide (y := '$') hx rfl
      rw [List.cons_append, quotedFrom_char (ne_of_wide hx rfl) (ne_of_wide hx rfl)
        (by simp [startsInterpolation, hdollar]), hcloses x hx, if_neg Bool.false_ne_true,
        ih hfront, List.length_cons, Nat.add_right_comm, Nat.add_assoc]

/-- An escape takes a character, and of a wide one its first byte; the string takes the others. -/
theorem agree_escape {whole : List Char} (h : Aligned whole bytes n)
    (hrest : whole.drop n = '\\' :: tail)
    (hnext : ∀ y rest, tail = y :: rest → Agree whole (Alike whole)
      (quotedFrom closes (bytes + (y.utf8Size + 1)) interpolated 0 (octets rest))
      (quotedFrom closes (n + 2) interpolated 0 rest)) :
    Agree whole (Alike whole) (quotedFrom closes bytes interpolated 0 ('\\' :: octets tail))
      (quotedFrom closes n interpolated 0 ('\\' :: tail)) := by
  have hfault : Aligned whole (bytes + 1) (n + 1) := h.add (hrest ▸ .cons_narrow rfl (.zero tail))
  rcases tail with _ | ⟨y, rest⟩
  · exact .error rfl h hfault
  have hnext := hnext y rest rfl
  rcases hy : isNarrow y with _ | _
  · obtain ⟨z, front, hz, hfront, hwidth, hoctets⟩ := octets_cons_wide hy rest
    have hcount : bytes + (y.utf8Size + 1) = bytes + 2 + front.length := by
      rw [← hwidth, List.length_cons]
      omega
    rw [hoctets, List.cons_append,
      quotedFrom_escape_cons (ne_of_wide hz rfl) (.inl (ne_of_wide hz rfl)),
      quotedFrom_append_wide hcloses hfront, ← hcount,
      quotedFrom_escape_cons (ne_of_wide hy rfl) (.inl (ne_of_wide hy rfl))]
    exact hnext
  · rw [octets_cons hy]
    rw [isNarrow_iff.mp hy] at hnext
    by_cases hline : y = '\n'
    · subst hline
      exact .error rfl h hfault
    by_cases hreturn : y ≠ '\r' ∨ ∀ more, rest ≠ '\n' :: more
    · have hreturn' : y ≠ '\r' ∨ ∀ more, octets rest ≠ '\n' :: more := by
        refine hreturn.imp_right fun hrest more hmore => ?_
        obtain ⟨more, hmore⟩ := exists_of_octets rfl hmore
        exact hrest more hmore
      rw [quotedFrom_escape_cons hline hreturn, quotedFrom_escape_cons hline hreturn']
      exact hnext
    · simp only [not_or, not_forall, not_not] at hreturn
      obtain ⟨rfl, more, rfl⟩ := hreturn
      exact .error rfl h hfault

/-- A string that no wide character closes ends at the same place in its bytes. -/
theorem agree_quotedFrom {whole : List Char} (h : Aligned whole bytes n)
    (hrest : whole.drop n = chars) :
    Agree whole (Alike whole) (quotedFrom closes bytes interpolated 0 (octets chars))
      (quotedFrom closes n interpolated 0 chars) := by
  induction hlength : chars.length using Nat.strong_induction_on
    generalizing chars bytes n interpolated with
  | _ length ih =>
  have hnext : ∀ {interpolated bytes' m}, 0 < m → Aligned chars bytes' m → chars ≠ [] →
      Agree whole (Alike whole)
        (quotedFrom closes (bytes + bytes') interpolated 0 (octets (chars.drop m)))
        (quotedFrom closes (n + m) interpolated 0 (chars.drop m)) := by
    intro interpolated bytes' m hm h' hne
    have hpos := List.length_pos_iff.mpr hne
    refine ih _ ?_ (h.add (hrest ▸ h')) (by rw [← List.drop_drop, hrest]) rfl
    rw [List.length_drop]
    omega
  rcases chars with _ | ⟨x, tail⟩
  · exact .error rfl (.zero _) h
  have hne : x :: tail ≠ [] := List.cons_ne_nil _ _
  rcases hx : isNarrow x with _ | _
  · obtain ⟨y, front, hy, hfront, hwidth, hoctets⟩ := octets_cons_wide hx tail
    have hone : ∀ y ∈ [x], isNarrow y = false := by simpa using hx
    rw [hoctets, quotedFrom_append_wide hcloses (List.forall_mem_cons.mpr ⟨hy, hfront⟩), hwidth,
      ← List.singleton_append, quotedFrom_append_wide hcloses hone]
    exact hnext Nat.one_pos ((Aligned.zero tail).cons x) hne
  rw [octets_cons hx]
  by_cases hline : x = '\n'
  · subst hline
    exact .error rfl (.zero _) h
  by_cases hslash : x = '\\'
  · subst hslash
    refine agree_escape hcloses h hrest ?_
    rintro y rest rfl
    exact hnext Nat.two_pos (.cons_narrow rfl ((Aligned.zero rest).cons y)) hne
  have hsame := startsInterpolation_octets (x :: tail)
  rw [octets_cons hx] at hsame
  rcases hstart : startsInterpolation (x :: tail) with _ | _
  · have hone : Aligned (x :: tail) 1 1 := .cons_narrow hx (.zero tail)
    rw [quotedFrom_char hline hslash hstart, quotedFrom_char hline hslash (hsame.trans hstart)]
    split
    · exact .ok ⟨h.add (hrest ▸ hone), rfl⟩
    · exact hnext Nat.one_pos hone hne
  · have hscan := agree_interpolation hstart
    rw [octets_cons hx] at hscan
    generalize hbytes : interpolation (x :: octets tail) = found at hscan
    generalize hn : interpolation (x :: tail) = found' at hscan
    cases hscan with
    | ok hfound =>
        rw [quotedFrom_interpolation hstart hn,
          quotedFrom_interpolation (hsame.trans hstart) hbytes, ← octets_cons hx,
          hfound.drop_octets]
        exact hnext (inline_interpolation hstart hn).1 hfound hne
    | error hfault hfrom hto =>
        rw [quotedFrom_interpolation_error hstart hn,
          quotedFrom_interpolation_error (hsame.trans hstart) hbytes]
        exact .error hfault (h.add (hrest ▸ hfrom)) (h.add (hrest ▸ hto))

end Quoted

/-- Bytes and characters agree on a quoted string and on what is wrong with it. -/
theorem agree_quoted (hstart : startsQuoted chars) :
    Agree chars (Alike chars) (quoted (octets chars)) (quoted chars) := by
  have hbody : ∀ {quote body}, isNarrow quote → Agree (quote :: body) (Alike (quote :: body))
      (quoted (octets (quote :: body))) (quoted (quote :: body)) := by
    intro quote body hquote
    rw [octets_cons hquote, quoted, quoted]
    refine agree_quotedFrom (fun x hx => ?_) (.cons_narrow hquote (.zero body)) rfl
    simpa using ne_of_wide hx hquote
  obtain ⟨body, rfl | rfl⟩ := startsQuoted_iff.mp hstart
  · exact hbody rfl
  · exact hbody rfl

end Mcfunction.Scan
