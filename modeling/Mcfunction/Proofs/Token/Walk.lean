import Mcfunction.Proofs.Parser.Logic
import Mcfunction.Tree.Mark

/-!
# Walks and Rows of Tokens

A token that is neither a string, an interpolation, a comment nor a continuation consists, after
its first character, of characters of words and numbers or of blanks. So it cannot run into a
quote, a `$` or a backslash, and to know where the strings and interpolations of a text stand it is
enough to walk over it character by character, with strings, interpolations and continuations
taken whole. `Walk` is such a walk and keeps the marks on its way; `Token.Row` is the row of tokens
between two places.

At the start of a line `#` and `$` have a meaning of their own, so a walk there is one over blanks
and continuations only.

## Main results

* `Token.scan_ordinary`: the reach of a token that starts with an ordinary character.
* `Walk.exists_row`: the tokens along a walk that ends where no token goes on have its marks.
-/

namespace Mcfunction

/-! ### Ordinary characters -/

namespace Scan

variable {chars : List Char} {x : Char} {n : Nat}

/-- Whether the first character is there, is no line break and starts neither a string nor an
interpolation nor a continuation. -/
def startsOrdinary (chars : List Char) : Bool :=
  match chars with
  | [] => false
  | c :: _ =>
    c != '\n' && !startsQuoted chars && !startsInterpolation chars && (continuation chars).isNone

/-- What a character that starts no token of its own is not. -/
theorem startsOrdinary_cons : startsOrdinary (x :: chars) ↔ x ≠ '\n' ∧
    startsQuoted (x :: chars) = false ∧ startsInterpolation (x :: chars) = false ∧
      continuation (x :: chars) = none := by
  simp [startsOrdinary, and_assoc]

/-- Characters that end a line or can start a string, an interpolation or a continuation. -/
def isSpecial (c : Char) : Bool :=
  c == '\n' || c == '"' || c == '\'' || c == '$' || c == '\\'

/-- Other characters than line feeds, quotes, dollar signs and backslashes start no such token. -/
theorem startsOrdinary_of_isSpecial (hx : isSpecial x = false) : startsOrdinary (x :: chars) := by
  simp only [isSpecial, Bool.or_eq_false_iff, beq_eq_false_iff_ne, ne_eq] at hx
  obtain ⟨⟨⟨⟨hnewline, hdouble⟩, hsingle⟩, hdollar⟩, hslash⟩ := hx
  rw [startsOrdinary_cons]
  refine ⟨hnewline, ?_, ?_, ?_⟩
  · rw [Bool.eq_false_iff, ne_eq, startsQuoted_iff]
    simp [hdouble, hsingle]
  · rw [Bool.eq_false_iff, ne_eq, startsInterpolation_iff]
    simp [hdollar]
  · unfold continuation
    split
    · rename_i heq
      exact absurd (List.cons.inj heq).1 hslash
    · rfl

theorem isSpecial_of_isLeafChar (hx : isLeafChar x) : isSpecial x = false := by
  have hne : ∀ y, isLeafChar y = false → x ≠ y := by
    rintro y hy rfl
    rw [hy] at hx
    cases hx
  simp [isSpecial, hne '\n' rfl, hne '"' rfl, hne '\'' rfl, hne '$' rfl, hne '\\' rfl]

theorem exists_of_startsQuoted (h : startsQuoted chars) :
    ∃ x tail, chars = x :: tail ∧ (x = '"' ∨ x = '\'') := by
  obtain ⟨tail, rfl | rfl⟩ := startsQuoted_iff.mp h
  · exact ⟨'"', tail, rfl, .inl rfl⟩
  · exact ⟨'\'', tail, rfl, .inr rfl⟩

theorem exists_of_continuation (h : continuation chars = some n) :
    ∃ tail, chars = '\\' :: tail := by
  obtain ⟨gap, tail, rfl, -, -⟩ := continuation_eq_some h
  exact ⟨_, rfl⟩

end Scan

/-! ### Single tokens -/

namespace Token

variable {x : Char} {tail : List Char} {lineStart : Bool} {n : Nat}

/-- A number, a word or a single character is no mark, and no statement starts after it. -/
theorem longest_kind {chars : List Char} {kind : TokenKind} (h : longest x chars = (kind, n)) :
    lineStartAfter lineStart kind = false ∧ kind.isMark = false := by
  unfold longest at h
  split at h
  · cases h
    exact ⟨rfl, rfl⟩
  · cases h
    exact ⟨rfl, rfl⟩
  · split at h <;> cases h <;> exact ⟨rfl, rfl⟩

/-- After its first character a number or a word has characters of such tokens only. -/
theorem longest_taken (x : Char) (tail : List Char) :
    ∃ kind k, longest x (x :: tail) = (kind, k + 1) ∧ Scan.Taken Scan.isTokenChar tail k := by
  have hfirst : ∀ n kind, longest x (x :: tail) = (kind, n) →
      Scan.Taken Scan.isTokenChar (x :: tail) n → 0 < n →
        ∃ kind k, longest x (x :: tail) = (kind, k + 1) ∧ Scan.Taken Scan.isTokenChar tail k := by
    intro n kind hlongest htaken hpos
    obtain ⟨k, rfl⟩ := Nat.exists_eq_succ_of_ne_zero hpos.ne'
    exact ⟨kind, k, hlongest, htaken.of_cons.2⟩
  rcases hnumber : Scan.wholeNumber (x :: tail) with _ | ⟨n, suffix⟩
  · rcases hword : Scan.word (x :: tail) with _ | n
    · exact ⟨_, 0, by simp [longest, hnumber, hword]; rfl, .zero _ _⟩
    · exact hfirst n .word (by simp [longest, hnumber, hword]) (Scan.taken_word hword)
        (Scan.word_pos hword)
  · have hsuffixed := Scan.wholeNumber_eq_some hnumber
    exact hfirst n .number (by simp [longest, hnumber])
      (Scan.taken_suffixedNumber hsuffixed) (Scan.suffixedNumber_pos hsuffixed)

/-- The tokens that a blank character starts. -/
theorem scan_blank (hblank : Scan.isBlank x) :
    scan lineStart x tail = .ok (.whitespace, Scan.run Scan.isBlank tail + 1) := by
  have hline : x ≠ '\n' := by
    rintro rfl
    cases hblank
  simp [scan, hline, hblank, Scan.run_cons]

/-- The characters of which a token consists after its first one `x`. -/
def goesOn (x : Char) : Char → Bool :=
  if Scan.isBlank x then Scan.isBlank else Scan.isTokenChar

theorem isLeafChar_of_goesOn {y : Char} (h : goesOn x y) : Scan.isLeafChar y := by
  unfold goesOn at h
  split at h
  · exact Scan.isLeafChar_of_isBlank h
  · exact Scan.isLeafChar_of_isTokenChar h

/-- A token that starts with an ordinary character is no mark, leaves it open whether a statement
can start, and goes on with characters of words and numbers, or with blanks. -/
theorem scan_ordinary (h : Scan.startsOrdinary (x :: tail))
    (hstart : lineStart → Scan.isBlank x) :
    ∃ kind k, scan lineStart x tail = .ok (kind, k + 1) ∧
      lineStartAfter lineStart kind = lineStart ∧ kind.isMark = false ∧
        Scan.Taken (goesOn x) tail k := by
  obtain ⟨hline, hquoted, hinterpolation, hcontinuation⟩ := Scan.startsOrdinary_cons.mp h
  by_cases hblank : Scan.isBlank x
  · have hgoes : goesOn x = Scan.isBlank := if_pos hblank
    refine ⟨.whitespace, _, scan_blank hblank, rfl, rfl, ?_⟩
    rw [hgoes]
    exact Scan.taken_run _ _
  · obtain rfl : lineStart = false := Bool.eq_false_iff.mpr fun h => hblank (hstart h)
    have hgoes : goesOn x = Scan.isTokenChar := if_neg hblank
    rw [hgoes]
    simp only [scan, beq_iff_eq, hline, hblank, hquoted, hinterpolation, hcontinuation,
      Bool.and_false, Bool.false_eq_true, if_false]
    split
    · rename_i hselector
      rcases tail with _ | ⟨y, tail⟩
      · simp at hselector
      · have hletter : y.isAlpha := by simpa using (Bool.and_eq_true _ _ ▸ hselector).2
        refine ⟨.selector, 1, rfl, rfl, rfl, .one ?_⟩
        exact Scan.isTokenChar_of_isAlphanum (by simp [Char.isAlphanum, hletter])
    · split
      · rcases hcoordinate : Scan.coordinate (x :: tail) with _ | n
        · exact ⟨.coordinate, 0, rfl, rfl, rfl, .zero _ _⟩
        · obtain ⟨_, _, k, heq, rfl, -, htaken⟩ := Scan.coordinate_taken hcoordinate
          cases heq
          exact ⟨.coordinate, k, rfl, rfl, rfl, htaken⟩
      · rcases hplayer : Scan.fakePlayer (x :: tail) with _ | n
        · obtain ⟨kind, k, hlongest, htaken⟩ := longest_taken x tail
          obtain ⟨hafter, hmark⟩ := longest_kind hlongest
          exact ⟨kind, k, congrArg _ hlongest, hafter, hmark, htaken⟩
        · obtain ⟨_, k, heq, rfl, htaken⟩ := Scan.fakePlayer_taken hplayer
          cases heq
          exact ⟨.fakePlayer, k, rfl, rfl, rfl, htaken⟩

/-- A continuation is one token. -/
theorem scan_continuation (h : Scan.continuation (x :: tail) = some n) :
    scan lineStart x tail = .ok (.continuation, n) := by
  obtain ⟨_, heq⟩ := Scan.exists_of_continuation h
  cases heq
  simp [scan, Scan.isBlank, Scan.startsInterpolation, Scan.startsQuoted, h]

/-- A quoted string is one token. -/
theorem scan_string {q : Scan.Quoted} (hstart : Scan.startsQuoted (x :: tail))
    (h : Scan.quoted (x :: tail) = .ok q) :
    scan lineStart x tail = .ok (.string, q.count) := by
  obtain ⟨_, _, heq, hx⟩ := Scan.exists_of_startsQuoted hstart
  cases heq
  rcases hx with rfl | rfl <;>
    simp [scan, Scan.isBlank, Scan.startsInterpolation, hstart, h, Except.map]

/-- An interpolation is one token. -/
theorem scan_interpolation (hstart : Scan.startsInterpolation (x :: tail))
    (h : Scan.interpolation (x :: tail) = .ok n) :
    scan lineStart x tail = .ok (.interpolation, n) := by
  obtain ⟨_, heq⟩ := Scan.startsInterpolation_iff.mp hstart
  cases heq
  simp [scan, Scan.isBlank, hstart, h, Except.map]

/-! ### Rows -/

/-- The tokens from one place to another, and whether a statement can start at each of the two. -/
inductive Row : Bool → Cursor → List Token → Bool → Cursor → Prop
  /-- No token. -/
  | nil {lineStart c} : Row lineStart c [] lineStart c
  /-- A token and those after it. -/
  | cons {lineStart after c d x tail kind n tokens} : c.rest = x :: tail →
      scan lineStart x tail = .ok (kind, n) → 0 < n → n ≤ c.rest.length →
      Row (lineStartAfter lineStart kind) (c.advance n) tokens after d →
      Row lineStart c (⟨kind, c.text n, c.spanTo (c.advance n)⟩ :: tokens) after d

namespace Row

variable {c d e : Cursor} {after after' : Bool} {tokens tokens' : List Token}

/-- Tokens from one place to another and on to a third are a row. -/
theorem trans (h : Row lineStart c tokens after d) (h' : Row after d tokens' after' e) :
    Row lineStart c (tokens ++ tokens') after' e := by
  induction h with
  | nil => exact h'
  | cons hrest hscan hpos hlen _ ih => exact .cons hrest hscan hpos hlen (ih h')

/-- A row that reaches the end of the text has all tokens. -/
theorem ofCursor_eq {fuel : Nat} (hfuel : c.rest.length ≤ fuel) (hend : d.rest = [])
    (h : Row lineStart c tokens after d) : ofCursor lineStart fuel c = .ok tokens := by
  induction h generalizing fuel with
  | nil =>
      cases fuel with
      | zero => rfl
      | succ fuel => rw [ofCursor, hend]
  | @cons _ _ c _ x tail kind n _ hrest hscan hpos hlen _ ih =>
      rcases fuel with _ | fuel
      · rw [hrest] at hfuel
        cases hfuel
      · have hnext : (c.advance n).rest.length ≤ fuel := by
          rw [Cursor.advance_rest, List.length_drop]
          omega
        rw [ofCursor, hrest]
        simp only [hscan, ih hnext hend]
        rfl

/-- Each token takes text, and starts where the one before it ends or later. -/
theorem ordered (h : Row lineStart c tokens after d) :
    (∀ token ∈ tokens, c.offset ≤ token.span.start ∧ token.span.start < token.span.stop) ∧
      tokens.Pairwise fun token later => token.span.stop ≤ later.span.start := by
  induction h with
  | nil => exact ⟨List.forall_mem_nil _, .nil⟩
  | @cons _ _ c _ _ _ _ n _ _ _ hpos hlen _ ih =>
      have hlt := Cursor.offset_lt_of_lt (Cursor.lt_advance hpos hlen)
      refine ⟨List.forall_mem_cons.mpr ⟨⟨le_rfl, hlt⟩, fun token hmem => ?_⟩, .cons ?_ ih.2⟩
      · exact ⟨hlt.le.trans (ih.1 token hmem).1, (ih.1 token hmem).2⟩
      · exact fun token hmem => (ih.1 token hmem).1

end Row

end Token

/-! ### Walks -/

/-- From the one place, characters, continuations, strings and interpolations lead to the other;
at the start of a line blanks and continuations do. The marks of the strings and interpolations
are kept. -/
inductive Walk (lineStart : Bool) : Cursor → List Mark → Cursor → Prop
  /-- No step. -/
  | refl (c) : Walk lineStart c [] c
  /-- An ordinary character. -/
  | char {c d marks} : Scan.startsOrdinary c.rest →
      (lineStart → ∃ x, c.peek = some x ∧ Scan.isBlank x) →
      Walk lineStart (c.advance 1) marks d → Walk lineStart c marks d
  /-- A continuation. -/
  | continuation {c d n marks} : Scan.continuation c.rest = some n →
      Walk lineStart (c.advance n) marks d → Walk lineStart c marks d
  /-- A string. -/
  | string {c d q marks} : lineStart = false → Scan.startsQuoted c.rest →
      Scan.quoted c.rest = .ok q → Walk lineStart (c.advance q.count) marks d →
      Walk lineStart c (⟨.string, c.spanTo (c.advance q.count)⟩ :: marks) d
  /-- An interpolation. -/
  | interpolation {c d n marks} : lineStart = false → Scan.startsInterpolation c.rest →
      Scan.interpolation c.rest = .ok n → Walk lineStart (c.advance n) marks d →
      Walk lineStart c (⟨.interpolation, c.spanTo (c.advance n)⟩ :: marks) d

/-- No token that ends a walk goes on at the place. -/
def Walk.Stops (lineStart : Bool) (d : Cursor) : Prop :=
  ∀ y, d.peek = some y → Scan.isBlank y = false ∧ (lineStart = false → Scan.isTokenChar y = false)

namespace Walk

variable {lineStart : Bool} {c d e : Cursor} {marks marks' : List Mark} {n : Nat}

/-- Two walks in a row are one with the marks of both. -/
theorem trans (h : Walk lineStart c marks d) (h' : Walk lineStart d marks' e) :
    Walk lineStart c (marks ++ marks') e := by
  induction h with
  | refl => exact h'
  | char hord hblank _ ih => exact .char hord hblank (ih h')
  | continuation hcontinuation _ ih => exact .continuation hcontinuation (ih h')
  | string hline hstart hok _ ih => exact .string hline hstart hok (ih h')
  | interpolation hline hstart hok _ ih => exact .interpolation hline hstart hok (ih h')

/-- A walk goes over the characters of a token one by one. -/
theorem drop {p : Char → Bool} (hp : ∀ y, p y → Scan.isLeafChar y)
    (hd : ∀ y, d.peek = some y → p y = false) (htaken : Scan.Taken p c.rest n)
    (h : Walk lineStart c marks d) : Walk lineStart (c.advance n) marks d := by
  induction n generalizing c with
  | zero => exact h
  | succ n ih =>
      rcases hrest : c.rest with _ | ⟨y, tail⟩
      · have hlen := htaken.le_length
        rw [hrest] at hlen
        cases hlen
      · rw [hrest] at htaken
        obtain ⟨hy, htail⟩ := htaken.of_cons
        have hord : Scan.startsOrdinary (y :: tail) :=
          Scan.startsOrdinary_of_isSpecial (Scan.isSpecial_of_isLeafChar (hp y hy))
        obtain ⟨-, hquoted, hinterpolation, hnone⟩ := Scan.startsOrdinary_cons.mp hord
        cases h with
        | refl =>
            rw [hd y (Cursor.peek_of_cons hrest)] at hy
            cases hy
        | char _ _ h =>
            have htail : Scan.Taken p (c.advance 1).rest n := by
              rwa [Cursor.advance_rest, hrest]
            have h := ih htail h
            rwa [Cursor.advance_advance, Nat.add_comm] at h
        | continuation hcontinuation =>
            rw [hrest, hnone] at hcontinuation
            cases hcontinuation
        | string _ hstart =>
            rw [hrest, hquoted] at hstart
            cases hstart
        | interpolation _ hstart =>
            rw [hrest, hinterpolation] at hstart
            cases hstart

/-- A single ordinary character. -/
theorem one (h : Scan.startsOrdinary c.rest) : Walk false c [] (c.advance 1) :=
  .char h Bool.noConfusion (.refl _)

/-- A character that starts neither string nor interpolation is walked over. -/
theorem peek {x : Char} (h : c.peek = some x) (hx : Scan.isSpecial x = false) :
    Walk false c [] (c.advance 1) := by
  obtain ⟨tail, hrest⟩ := List.head?_eq_some_iff.mp h
  exact .one (hrest ▸ Scan.startsOrdinary_of_isSpecial hx)

/-- Trivia are walked over. -/
theorem skipTrivia (lineStart : Bool) (c : Cursor) : Walk lineStart c [] c.skipTrivia := by
  refine Scan.repeated_induction
    (motive := fun chars n => ∀ c : Cursor, c.rest = chars → Walk lineStart c [] (c.advance n))
    Scan.triviaStep_le_length (fun _ _ c _ => .refl c) ?_ c.rest c rfl
  rintro chars n hpos ih c rfl
  have hnext := ih (c.advance (Scan.triviaStep c.rest)) (Cursor.advance_rest _ _)
  rw [Cursor.advance_advance] at hnext
  rcases hrest : c.rest with _ | ⟨x, tail⟩
  · rw [hrest] at hpos
    cases hpos
  · rw [← hrest]
    by_cases hblank : Scan.isBlank x
    · have hord : Scan.startsOrdinary (x :: tail) :=
        Scan.startsOrdinary_of_isSpecial
          (Scan.isSpecial_of_isLeafChar (Scan.isLeafChar_of_isBlank hblank))
      have hstep : Scan.triviaStep c.rest = 1 := by
        rw [hrest]
        exact if_pos hblank
      rw [hstep, ← Cursor.advance_advance] at hnext
      rw [hstep, ← Cursor.advance_advance]
      exact .char (hrest ▸ hord) (fun _ => ⟨x, Cursor.peek_of_cons hrest, hblank⟩) hnext
    · rcases hcontinuation : Scan.continuation c.rest with _ | k
      · have hstep : Scan.triviaStep c.rest = 0 := by
          rw [hrest] at hcontinuation ⊢
          simp [Scan.triviaStep, hblank, hcontinuation]
        rw [hstep] at hpos
        cases hpos
      · have hstep : Scan.triviaStep c.rest = k := by
          rw [hrest] at hcontinuation ⊢
          simp [Scan.triviaStep, hblank, hcontinuation]
        rw [hstep, ← Cursor.advance_advance] at hnext
        rw [hstep, ← Cursor.advance_advance]
        exact .continuation hcontinuation hnext

/-- The characters of leaves without quotes. -/
theorem leaf (h : Scan.Taken Scan.isLeafChar c.rest n) : Walk false c [] (c.advance n) := by
  induction n generalizing c with
  | zero => exact .refl c
  | succ n ih =>
      rcases hrest : c.rest with _ | ⟨x, tail⟩
      · rw [hrest] at h
        cases h.le_length
      · rw [hrest] at h
        obtain ⟨hx, htail⟩ := h.of_cons
        have hord : Scan.startsOrdinary (x :: tail) :=
          Scan.startsOrdinary_of_isSpecial (Scan.isSpecial_of_isLeafChar hx)
        have htail : Scan.Taken Scan.isLeafChar (c.advance 1).rest n := by
          rwa [Cursor.advance_rest, hrest]
        have hnext := (Walk.one (hrest ▸ hord)).trans (ih htail)
        rwa [Cursor.advance_advance, Nat.add_comm] at hnext

/-- Characters of tokens are walked over. -/
theorem token (h : Scan.Taken Scan.isTokenChar c.rest n) : Walk false c [] (c.advance n) :=
  leaf (h.mono fun _ => Scan.isLeafChar_of_isTokenChar)

/-- Solid characters are walked over. -/
theorem solid (h : Scan.Taken Scan.isSolidChar c.rest n) : Walk false c [] (c.advance n) :=
  leaf (h.mono fun _ => Scan.isLeafChar_of_isSolidChar)

/-- Text between interpolations may hold a `$` or a backslash, but neither an interpolation nor a
continuation starts in it. -/
theorem fragment {inKey : Bool} (h : Scan.fragment inKey c.rest = some n) :
    Walk false c [] (c.advance n) := by
  have hrepeated : Scan.repeated (Scan.fragmentStep inKey) 0 c.rest = n := by
    unfold Scan.fragment at h
    split at h <;> cases h
    assumption
  rw [← hrepeated]
  refine Scan.repeated_induction
    (motive := fun chars n => ∀ c : Cursor, c.rest = chars → Walk false c [] (c.advance n))
    (fun chars => (Scan.inline_fragmentStep inKey chars).le_length) (fun _ _ c _ => .refl c) ?_
    c.rest c rfl
  rintro chars n hpos ih c rfl
  rcases hrest : c.rest with _ | ⟨x, tail⟩
  · rw [hrest] at hpos
    cases hpos
  · rw [hrest] at hpos
    unfold Scan.fragmentStep at hpos
    simp only at hpos
    split at hpos
    · cases hpos
    · rename_i hends
      simp only [Bool.or_eq_true, not_or, Bool.not_eq_true, Option.isSome_eq_false_iff,
        Option.isNone_iff_eq_none] at hends
      obtain ⟨⟨⟨hends, hkey⟩, hinterpolation⟩, hcontinuation⟩ := hends
      have hne : ∀ y, Scan.endsFragment y → x ≠ y := by
        rintro y hy rfl
        rw [hends] at hy
        cases hy
      have hquoted : Scan.startsQuoted (x :: tail) = false := by
        rw [Bool.eq_false_iff, ne_eq, Scan.startsQuoted_iff]
        simp [hne '"' rfl, hne '\'' rfl]
      have hord : Scan.startsOrdinary (x :: tail) :=
        Scan.startsOrdinary_cons.mpr ⟨hne '\n' rfl, hquoted, hinterpolation, hcontinuation⟩
      have hstep : Scan.fragmentStep inKey (x :: tail) = 1 := by
        simp [Scan.fragmentStep, hends, hinterpolation, hcontinuation, hkey]
      rw [hrest, hstep] at ih
      rw [hstep, ← Cursor.advance_advance]
      refine (Walk.one (hrest ▸ hord)).trans (ih _ ?_)
      rw [Cursor.advance_rest, hrest]

/-- The token that starts with an ordinary character leads on along the walk. -/
theorem exists_token (hd : Stops lineStart d) (hord : Scan.startsOrdinary c.rest)
    (hblank : lineStart → ∃ x, c.peek = some x ∧ Scan.isBlank x)
    (h : Walk lineStart (c.advance 1) marks d) :
    ∃ x tail kind k, c.rest = x :: tail ∧ Token.scan lineStart x tail = .ok (kind, k + 1) ∧
      Token.lineStartAfter lineStart kind = lineStart ∧ kind.isMark = false ∧
        k + 1 ≤ c.rest.length ∧ Walk lineStart (c.advance (k + 1)) marks d := by
  rcases hrest : c.rest with _ | ⟨x, tail⟩
  · rw [hrest] at hord
    cases hord
  · have hstart : lineStart → Scan.isBlank x := by
      intro hline
      obtain ⟨y, hpeek, hy⟩ := hblank hline
      rw [Cursor.peek_of_cons hrest] at hpeek
      cases hpeek
      exact hy
    obtain ⟨kind, k, hscan, hafter, hmark, htaken⟩ := Token.scan_ordinary (hrest ▸ hord) hstart
    have hgoes : ∀ y, d.peek = some y → Token.goesOn x y = false := by
      intro y hy
      obtain ⟨hyblank, hytoken⟩ := hd y hy
      unfold Token.goesOn
      split
      · exact hyblank
      · rename_i hx
        exact hytoken (Bool.eq_false_iff.mpr fun hline => hx (hstart hline))
    have htail : Scan.Taken (Token.goesOn x) (c.advance 1).rest k := by
      rwa [Cursor.advance_rest, hrest]
    have hnext := h.drop (fun _ => Token.isLeafChar_of_goesOn) hgoes htail
    rw [Cursor.advance_advance, Nat.add_comm] at hnext
    have hlen := htaken.le_length
    refine ⟨x, tail, kind, k, rfl, hscan, hafter, hmark, ?_, hnext⟩
    rw [List.length_cons]
    omega

/-- Along a walk stands a row of tokens with the same marks. The induction is on the text that is
left, since a token takes several characters of the walk at once. -/
theorem exists_row (hd : Stops lineStart d) (h : Walk lineStart c marks d) :
    ∃ tokens, Token.Row lineStart c tokens lineStart d ∧ tokens.filterMap Token.mark? = marks := by
  induction hlength : c.rest.length using Nat.strong_induction_on generalizing c marks with
  | _ length ih =>
      subst hlength
      have hshorter : ∀ {n}, 0 < n → n ≤ c.rest.length →
          (c.advance n).rest.length < c.rest.length := fun hpos hlen =>
        Cursor.length_lt_of_lt (Cursor.lt_advance hpos hlen)
      cases h with
      | refl => exact ⟨[], .nil, rfl⟩
      | char hord hblank h =>
          obtain ⟨x, tail, kind, k, hrest, hscan, hafter, hmark, hlen, h⟩ :=
            exists_token hd hord hblank h
          obtain ⟨tokens, hrow, hmarks⟩ := ih _ (hshorter (Nat.succ_pos k) hlen) h rfl
          refine ⟨_, .cons hrest hscan (Nat.succ_pos k) hlen (by rwa [hafter]), ?_⟩
          rw [List.filterMap_cons_none (by simp [Token.mark?, hmark]), hmarks]
      | @continuation _ _ n _ hcontinuation h =>
          obtain ⟨tail, hrest⟩ := Scan.exists_of_continuation hcontinuation
          have hlen := Scan.continuation_le_length hcontinuation
          have hpos : 0 < n := Nat.zero_lt_of_lt (Scan.two_le_continuation hcontinuation)
          obtain ⟨tokens, hrow, hmarks⟩ := ih _ (hshorter hpos hlen) h rfl
          rw [hrest] at hcontinuation
          refine ⟨_, .cons hrest (Token.scan_continuation hcontinuation) hpos hlen hrow, ?_⟩
          rw [List.filterMap_cons_none rfl, hmarks]
      | string hline hstart hok h =>
          subst hline
          obtain ⟨x, tail, hrest, -⟩ := Scan.exists_of_startsQuoted hstart
          have hlen := (Scan.inline_quoted hstart hok).le_length
          obtain ⟨tokens, hrow, hmarks⟩ := ih _ (hshorter (Nat.succ_pos _) hlen) h rfl
          rw [hrest] at hstart hok
          exact ⟨_, .cons hrest (Token.scan_string hstart hok) (Nat.succ_pos _) hlen hrow,
            congrArg (List.cons _) hmarks⟩
      | interpolation hline hstart hok h =>
          subst hline
          obtain ⟨tail, hrest⟩ := Scan.startsInterpolation_iff.mp hstart
          obtain ⟨hpos, hinline⟩ := Scan.inline_interpolation hstart hok
          obtain ⟨tokens, hrow, hmarks⟩ := ih _ (hshorter hpos hinline.le_length) h rfl
          rw [hrest] at hstart hok
          exact ⟨_, .cons hrest (Token.scan_interpolation hstart hok) hpos hinline.le_length hrow,
            congrArg (List.cons _) hmarks⟩

end Walk

end Mcfunction
