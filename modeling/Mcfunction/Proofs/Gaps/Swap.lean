import Mcfunction.Parser.Document
import Mcfunction.Proofs.Gaps.Scan

/-!
# Two Gaps in One Place

Where one gap can stand, another can, unless a line continuation makes the difference: the parts of
coordinates have blanks between them, but no line continuation. So two gaps are interchangeable if
both or neither of them hold one.

`Facing` relates what is left of a text with the one gap to what is left of the same text with the
other, from a place in front of the gaps on or from one behind them. Recognizers that look across
the gap find the same in both.

## Main results

* `Facing.coordinates_isSome`: whether coordinates come next.
* `Facing.startsSubcommand`, `Facing.startsPair`: what looks beyond trivia.
-/

namespace Mcfunction

namespace Scan

variable {old new gap gap' after chars chars' : List Char} {m n : Nat}

/-! ### Blanks -/

/-- Filler without line feeds is blank. -/
theorem isBlank_of_filler (h : Filler false gap) (hline : '\n' ∉ gap) : ∀ x ∈ gap, isBlank x := by
  induction h with
  | nil => exact List.forall_mem_nil _
  | blank hx _ ih =>
      rw [List.mem_cons, not_or] at hline
      exact List.forall_mem_cons.mpr ⟨hx, ih hline.2⟩
  | lineBreak hbreaks => cases hbreaks
  | @continuation blanks line chars _ hbreak =>
      refine absurd ?_ hline
      rcases hbreak with rfl | rfl <;> simp

/-- Blanks in front of a line continuation end with its backslash. -/
theorem drop_run_isBlank_of_mem (h : Filler false gap) (hline : '\n' ∈ gap) (tail : List Char) :
    ∃ rest, (gap ++ tail).drop (run isBlank (gap ++ tail)) = '\\' :: rest := by
  induction h with
  | nil => cases hline
  | @blank x chars hx _ ih =>
      have hchars : '\n' ∈ chars := by
        rcases List.mem_cons.mp hline with rfl | hchars
        · cases hx
        · exact hchars
      obtain ⟨rest, hrest⟩ := ih hchars
      exact ⟨rest, by rw [List.cons_append, run_cons, if_pos hx, List.drop_succ_cons, hrest]⟩
  | lineBreak hbreaks => cases hbreaks
  | continuation => exact ⟨_, by rw [List.append_assoc, List.append_assoc, List.cons_append,
      run_cons, if_neg (by decide)]; rfl⟩

theorem coordinate_backslash (rest : List Char) : coordinate ('\\' :: rest) = none := by
  simp [coordinate, suffixedNumber, number, minus, decimal, run_cons]

theorem isBlank_of_triviaStep (h : triviaStep after = 0) : run isBlank after = 0 := by
  rcases after with _ | ⟨x, rest⟩
  · rfl
  · rw [run_cons, if_neg]
    intro hx
    simp [triviaStep, hx] at h

/-- The blanks from some blanks on, if a gap without line continuation follows them. -/
theorem Separates.run_isBlank (h : Separates gap after) (hline : '\n' ∉ gap)
    (hchars : ∀ x ∈ chars, isBlank x) :
    run isBlank (chars ++ (gap ++ after)) = chars.length + gap.length := by
  have hall : ∀ x ∈ chars ++ gap, isBlank x := by
    rw [List.forall_mem_append]
    exact ⟨hchars, isBlank_of_filler h.filler hline⟩
  have hstop := isBlank_of_triviaStep h.stops
  rw [run] at hstop ⊢
  rw [← List.append_assoc, List.takeWhile_append_of_pos hall, List.length_append, hstop,
    List.length_append, Nat.add_zero]

/-- A run that ends in the text ends there whatever follows. -/
theorem run_append_eq {p : Char → Bool} (h : ¬ ∀ x ∈ chars, p x) (tail : List Char) :
    run p (chars ++ tail) = run p chars := by
  obtain ⟨x, hx, hpx⟩ : ∃ x ∈ chars, p x = false := by simpa using h
  obtain ⟨before, rest, rfl⟩ := List.append_of_mem hx
  rw [List.append_assoc, List.cons_append, run_append_cons hpx, run_append_cons hpx]

/-! ### Two gaps -/

/-- Two gaps in front of the same text. Both or neither of them hold a line continuation. -/
structure Interchangeable (old new after : List Char) : Prop where
  /-- The first is a gap. -/
  old_separates : Separates old after
  /-- So is the second. -/
  new_separates : Separates new after
  /-- A line continuation holds a line break. -/
  continued : '\n' ∈ old ↔ '\n' ∈ new

/-- Gaps that can be interchanged can be interchanged back. -/
theorem Interchangeable.symm (h : Interchangeable old new after) : Interchangeable new old after :=
  ⟨h.new_separates, h.old_separates, h.continued.symm⟩

/-- What is left of a text with the one gap, and of the text with the other gap. -/
inductive Facing (old new after : List Char) : List Char → List Char → Prop
  /-- In front of the gaps. -/
  | before (chars : List Char) :
      Facing old new after (chars ++ (old ++ after)) (chars ++ (new ++ after))
  /-- Behind them. -/
  | same (chars : List Char) : Facing old new after chars chars

namespace Facing

theorem symm (hfacing : Facing old new after chars chars') :
    Facing new old after chars' chars := by
  cases hfacing with
  | before chars => exact .before chars
  | same => exact .same _

variable (h : Interchangeable old new after) (hfacing : Facing old new after chars chars')

include h hfacing

/-- A recognizer that no gap concerns finds the same in both texts. -/
theorem scan_eq {α : Type} {f : List Char → α}
    (hf : ∀ {gap chars}, Separates gap after → f (chars ++ (gap ++ after)) = f chars) :
    f chars = f chars' := by
  cases hfacing with
  | before chars => rw [hf h.old_separates, hf h.new_separates]
  | same => rfl

/-- After what it finds, the texts are as before. -/
theorem drop {f : List Char → Option Nat}
    (hf : ∀ {gap chars}, Separates gap after → f (chars ++ (gap ++ after)) = f chars)
    (hle : ∀ {chars n}, f chars = some n → n ≤ chars.length) (hn : f chars = some n) :
    Facing old new after (chars.drop n) (chars'.drop n) := by
  cases hfacing with
  | before chars =>
      rw [hf h.old_separates] at hn
      rw [List.drop_append_of_le_length (hle hn), List.drop_append_of_le_length (hle hn)]
      exact .before _
  | same => exact .same _

/-! ### Coordinates -/

/-- A coordinate in front of the gap is the same with both gaps. -/
theorem coordinate_eq : coordinate chars = coordinate chars' :=
  hfacing.scan_eq h fun h => h.coordinate_append _

/-- Behind a coordinate two texts face the gaps as before. -/
theorem drop_coordinate (hn : coordinate chars = some n) :
    Facing old new after (chars.drop n) (chars'.drop n) :=
  hfacing.drop h (fun h => h.coordinate_append _) (fun h => (inline_coordinate h).le_length) hn

/-- Where a coordinate follows blanks, one does with the other gap. -/
theorem coordinate_of_blanks (hm : run? isBlank chars = some m)
    (hn : coordinate (chars.drop m) = some n) :
    ∃ m', run? isBlank chars' = some m' ∧ coordinate (chars'.drop m') = some n ∧
      Facing old new after (chars.drop (m + n)) (chars'.drop (m' + n)) := by
  cases hfacing with
  | before chars =>
      obtain ⟨hrun, hpos⟩ := run?_eq_some.mp hm
      by_cases hblank : ∀ x ∈ chars, isBlank x
      · by_cases hline : '\n' ∈ old
        · -- the blanks end with the backslash of a line continuation
          have hall : run isBlank (chars ++ (old ++ after)) =
              chars.length + run isBlank (old ++ after) := by
            rw [run, List.takeWhile_append_of_pos hblank, List.length_append, run]
          obtain ⟨rest, hrest⟩ := drop_run_isBlank_of_mem h.old_separates.filler hline after
          rw [← hrun, hall, List.drop_length_add_append, hrest, coordinate_backslash] at hn
          cases hn
        · have hnew : '\n' ∉ new := fun hmem => hline (h.continued.mpr hmem)
          rw [h.old_separates.run_isBlank hline hblank] at hrun
          have hafter : ∀ gap : List Char,
              (chars ++ (gap ++ after)).drop (chars.length + gap.length) = after := fun gap => by
            rw [← List.append_assoc, ← List.length_append, List.drop_left]
          rw [← hrun, hafter] at hn
          have hpos' := h.new_separates.length_pos
          refine ⟨chars.length + new.length, ?_, ?_, ?_⟩
          · rw [run?_eq_some, h.new_separates.run_isBlank hnew hblank]
            exact ⟨rfl, by omega⟩
          · rw [hafter, hn]
          · rw [← List.drop_drop, ← List.drop_drop, ← hrun, hafter, hafter]
            exact .same _
      · have hlen := run_le_length isBlank chars
        rw [run_append_eq hblank] at hrun
        have hleft : Facing old new after ((chars ++ (old ++ after)).drop m)
            ((chars ++ (new ++ after)).drop m) := by
          rw [← hrun, List.drop_append_of_le_length hlen, List.drop_append_of_le_length hlen]
          exact .before _
        refine ⟨m, ?_, (hleft.coordinate_eq h).symm.trans hn, ?_⟩
        · rw [run?_eq_some, run_append_eq hblank]
          exact ⟨hrun, hpos⟩
        · rw [← List.drop_drop, ← List.drop_drop]
          exact hleft.drop_coordinate h hn
  | same => exact ⟨m, hm, hn, .same _⟩

theorem head?_any_isPathChar : chars.head?.any isPathChar = chars'.head?.any isPathChar :=
  hfacing.scan_eq h (f := fun chars => chars.head?.any isPathChar)
    fun h => h.head?_any (by decide) _

/-- Coordinates are found with both gaps if they are found with one. -/
theorem coordinates_isSome_of_isSome (hsome : (coordinates chars).isSome) :
    (coordinates chars').isSome := by
  obtain ⟨parts, hparts⟩ := Option.isSome_iff_exists.mp hsome
  simp only [coordinates, Option.bind_eq_bind, Option.bind_eq_some_iff] at hparts
  obtain ⟨x, hx, m, hm, y, hy, k, hk, z, hz, hend⟩ := hparts
  have hdrop : ∀ {chars : List Char} {a b c},
      chars.drop (a + b + c) = (chars.drop a).drop (b + c) := fun {_ _ _ _} => by
    rw [List.drop_drop, Nat.add_assoc]
  have hfirst := hfacing.drop_coordinate h hx
  rw [← List.drop_drop] at hy
  obtain ⟨m', hm', hy', hsecond⟩ := hfirst.coordinate_of_blanks h hm hy
  rw [hdrop] at hk
  rw [← List.drop_drop, hdrop] at hz
  obtain ⟨k', hk', hz', hthird⟩ := hsecond.coordinate_of_blanks h hk hz
  have hpath := hthird.head?_any_isPathChar h
  have hx' : coordinate chars' = some x := by
    rw [← hfacing.coordinate_eq h, hx]
  split at hend
  · cases hend
  · rename_i hnone
    simp only [List.drop_drop, ← Nat.add_assoc] at hm' hy' hk' hz' hpath
    rw [hpath] at hnone
    simp only [coordinates, Option.bind_eq_bind, hx', hm', hy', hk', hz', Option.bind_some,
      if_neg hnone]
    rfl

/-- Whether coordinates come next is the same with both gaps. -/
theorem coordinates_isSome : (coordinates chars).isSome = (coordinates chars').isSome :=
  Bool.eq_iff_iff.mpr ⟨hfacing.coordinates_isSome_of_isSome h,
    hfacing.symm.coordinates_isSome_of_isSome h.symm⟩

/-! ### Beyond trivia -/

/-- After trivia the texts are the same, or go on with the same character in front of the gaps. -/
theorem drop_trivia : (0 < trivia chars ↔ 0 < trivia chars') ∧
    (chars.drop (trivia chars) = chars'.drop (trivia chars') ∨
      ∃ c rest, chars.drop (trivia chars) = c :: rest ++ (old ++ after) ∧
        chars'.drop (trivia chars') = c :: rest ++ (new ++ after)) := by
  cases hfacing with
  | same => exact ⟨Iff.rfl, .inl rfl⟩
  | before chars =>
      have hlen := trivia_le_length chars
      rw [h.old_separates.trivia_append, h.new_separates.trivia_append]
      by_cases hall : trivia chars = chars.length
      · have hold := h.old_separates.length_pos
        have hnew := h.new_separates.length_pos
        rw [if_pos hall, if_pos hall]
        refine ⟨by omega, .inl ?_⟩
        rw [List.drop_length_add_append, List.drop_length_add_append, List.drop_left,
          List.drop_left]
      · rw [if_neg hall, if_neg hall]
        obtain ⟨c, rest, hrest⟩ := List.exists_cons_of_length_pos
          (l := chars.drop (trivia chars)) (by rw [List.length_drop]; omega)
        refine ⟨Iff.rfl, .inr ⟨c, rest, ?_, ?_⟩⟩
        · rw [List.drop_append_of_le_length hlen, hrest]
        · rw [List.drop_append_of_le_length hlen, hrest]

/-- Whether `run` has a subcommand does not depend on the gap after it. -/
theorem startsSubcommand : Parser.startsSubcommand chars = Parser.startsSubcommand chars' := by
  obtain ⟨hpos, heq | ⟨c, rest, hleft, hright⟩⟩ := hfacing.drop_trivia h
  · simp only [Parser.startsSubcommand, heq, hpos]
  · have hstart := (Facing.before (c :: rest)).scan_eq h (f := startsInterpolation)
      fun h => h.startsInterpolation_append _
    rw [List.cons_append, List.cons_append] at hstart
    simp only [Parser.startsSubcommand, hpos, hleft, hright, List.cons_append, hstart]

end Facing

/-! ### Coordinates and comments in front of the gaps -/

theorem run?_append_of_lt {p : Char → Bool} {tail : List Char}
    (hn : run? p (chars ++ tail) = some n) (hlt : n < chars.length) (tail' : List Char) :
    run? p (chars ++ tail') = some n := by
  obtain ⟨hrun, hpos⟩ := run?_eq_some.mp hn
  have hall : ¬ ∀ x ∈ chars, p x := by
    intro hall
    rw [run, List.takeWhile_append_of_pos hall, List.length_append] at hrun
    omega
  rw [run?_eq_some, run_append_eq hall, ← run_append_eq hall tail]
  exact ⟨hrun, hpos⟩

namespace Separates

variable {after' : List Char} (h : Separates gap after) (h' : Separates gap' after')

include h h'

/-- Coordinates that end in front of a gap. -/
theorem coordinates_append_of_le {parts : Triple (Nat × Nat)}
    (hparts : coordinates (chars ++ (gap ++ after)) = some parts)
    (hle : parts.z.2 ≤ chars.length) : coordinates (chars ++ (gap' ++ after')) = some parts := by
  simp only [coordinates, Option.bind_eq_bind, Option.bind_eq_some_iff] at hparts ⊢
  obtain ⟨x, hx, m, hm, y, hy, k, hk, z, hz, hend⟩ := hparts
  split at hend
  · cases hend
  · rename_i hpath
    cases hend
    simp only at hle
    have hypos := coordinate_pos hy
    have hzpos := coordinate_pos hz
    have hdrop : ∀ {n} {tail : List Char}, n ≤ chars.length →
        (chars ++ tail).drop n = chars.drop n ++ tail :=
      fun h => List.drop_append_of_le_length h
    have hcoordinate : ∀ {n}, n ≤ chars.length →
        coordinate ((chars ++ (gap' ++ after')).drop n) =
          coordinate ((chars ++ (gap ++ after)).drop n) := fun hn => by
      rw [hdrop hn, hdrop hn, h.coordinate_append, h'.coordinate_append]
    have hblanks : ∀ {n k}, run? isBlank ((chars ++ (gap ++ after)).drop n) = some k →
        n + k < chars.length → run? isBlank ((chars ++ (gap' ++ after')).drop n) = some k := by
      intro n k hk hlt
      rw [hdrop (by omega)] at hk ⊢
      exact run?_append_of_lt hk (by rw [List.length_drop]; omega) _
    refine ⟨x, ?_, m, hblanks hm (by omega), y, ?_, k, hblanks hk (by omega), z, ?_, ?_⟩
    · have := hcoordinate (Nat.zero_le _)
      rw [List.drop_zero, List.drop_zero] at this
      rw [this, hx]
    · rw [hcoordinate (by omega), hy]
    · rw [hcoordinate (by omega), hz]
    · rw [hdrop hle, h.head?_any (by decide)] at hpath
      rw [hdrop hle, h'.head?_any (by decide), if_neg hpath]

omit h' in
/-- The tag of a comment ends at the gap. -/
theorem commentTag_append (chars : List Char) :
    commentTag (chars ++ (gap ++ after)) = commentTag chars := by
  have hhashes := h.run_append (p := (· == '#')) (by decide) chars
  simp only [commentTag, hhashes, List.drop_append_of_le_length (run_le_length _ _)]
  rcases chars.drop (run (· == '#') chars) with _ | ⟨mark, rest⟩
  · obtain ⟨x, rest, htail, hx⟩ := h.exists_cons
    simp [htail, isGapChar_ne hx (y := '!') (by decide), isGapChar_ne hx (y := '@') (by decide),
      isGapChar_ne hx (y := '>') (by decide)]
  · by_cases hmark : (mark == '!' || mark == '@' || mark == '>') = true
    · have hrun : run (· == mark) (rest ++ (gap ++ after)) = run (· == mark) rest := by
        refine h.run_append ?_ rest
        simp only [Bool.or_eq_true, beq_iff_eq] at hmark
        rcases hmark with (rfl | rfl) | rfl <;> decide
      simp only [List.cons_append, hmark, if_true, hrun]
    · simp only [List.cons_append, hmark, Bool.false_eq_true, if_false]

omit h' in
/-- A statement goes on after a gap. -/
theorem statement_append (chars : List Char) :
    statement (chars ++ (gap ++ after)) = statement chars ∧ statement chars < chars.length ∨
      statement chars = chars.length ∧
        chars.length + gap.length < statement (chars ++ (gap ++ after)) := by
  have happend := repeated_append_tail statementStep_le_length h.statementStep_append chars
  change statement (chars ++ (gap ++ after)) =
    if statement chars = chars.length then chars.length + statement (gap ++ after)
    else statement chars at happend
  have hlen := statement_le_length chars
  split at happend
  · rename_i hall
    right
    have hafter : 0 < statement after := by
      rcases hcons : after with _ | ⟨x, rest⟩
      · have hline := h.goesOn
        rw [hcons] at hline
        cases hline
      · refine statement_pos ?_
        rintro rfl
        have hline := h.goesOn
        rw [hcons] at hline
        cases hline
    have hgap := statement_eq_trivia_add (gap ++ after)
    rw [h.trivia_eq, List.drop_left] at hgap
    exact ⟨hall, by omega⟩
  · exact .inl ⟨happend, by omega⟩

/-- The text of a comment that ends in front of a gap. -/
theorem commentText_append_of_le (hle : commentText (chars ++ (gap ++ after)) ≤ chars.length) :
    commentText (chars ++ (gap' ++ after')) = commentText (chars ++ (gap ++ after)) := by
  have hpos := h.length_pos
  rcases h.statement_append chars with ⟨hsame, hlt⟩ | ⟨hall, hlt⟩
  · have hsame' : statement (chars ++ (gap' ++ after')) = statement chars := by
      rcases h'.statement_append chars with ⟨hsame', -⟩ | ⟨hall, -⟩
      · exact hsame'
      · omega
    simp only [commentText, hsame, hsame', List.take_append_of_le_length hlt.le]
  · simp only [commentText] at hle
    split at hle <;> omega

end Separates

/-! ### Pairs -/

section Pairs

variable (h : Interchangeable old new after)

include h

omit h in
theorem take_append_drop_append (hle : n ≤ chars.length) (tail tail' : List Char) :
    (chars ++ tail).take n ++ (chars.drop n ++ tail') = chars ++ tail' := by
  rw [List.take_append_of_le_length hle, ← List.append_assoc, List.take_append_drop]

/-- The pieces of a key that end in front of the gaps. -/
theorem Interchangeable.interpolatedKeyPieces {fuel fuel' : Nat}
    (hfuel : (chars ++ (old ++ after)).length ≤ fuel)
    (hfuel' : (chars ++ (new ++ after)).length ≤ fuel')
    (hn : interpolatedKeyPieces fuel (chars ++ (old ++ after)) = some n) (hle : n ≤ chars.length) :
    interpolatedKeyPieces fuel' (chars ++ (new ++ after)) = some n := by
  have hold := h.old_separates.length_pos
  have hnew := h.new_separates.length_pos
  simp only [List.length_append] at hfuel hfuel'
  induction fuel generalizing chars fuel' n with
  | zero => omega
  | succ fuel ih =>
      obtain ⟨fuel', rfl⟩ : ∃ k, fuel' = k + 1 := ⟨fuel' - 1, by omega⟩
      have hstart := h.old_separates.startsInterpolation_append chars
      have hfragment : fragment true _ = fragment true _ :=
        h.old_separates.fragment_append chars
      -- the pieces after the first
      have hnext : ∀ {count m}, 0 < count → count + m ≤ chars.length →
          Scan.interpolatedKeyPieces fuel ((chars ++ (old ++ after)).drop count) = some m →
          Scan.interpolatedKeyPieces fuel' ((chars ++ (new ++ after)).drop count) = some m := by
        intro count m hpos hcount hm
        have hlen : count ≤ chars.length := by omega
        rw [List.drop_append_of_le_length hlen] at hm ⊢
        have hrest := List.length_drop (i := count) (l := chars)
        exact ih hm (by omega) (by omega) (by omega)
      rw [Scan.interpolatedKeyPieces] at hn ⊢
      rw [h.new_separates.startsInterpolation_append, ← hstart]
      rw [h.new_separates.fragment_append, ← hfragment]
      split
      · rename_i hopen
        rw [if_pos hopen] at hn
        rcases hscan : interpolation (chars ++ (old ++ after)) with error | count
        · simp [hscan] at hn
        · simp only [hscan, Option.map_eq_some_iff] at hn
          obtain ⟨m, hm, rfl⟩ := hn
          have hcount : count ≤ chars.length := by omega
          have hsame := interpolation_take_append hopen hscan (chars.drop count ++ (new ++ after))
          rw [take_append_drop_append hcount] at hsame
          have hpos := (inline_interpolation hopen hscan).1
          simp only [hsame, hnext hpos hle hm, Option.map_some]
      · rename_i hopen
        rw [if_neg hopen] at hn
        rcases hscan : fragment true (chars ++ (old ++ after)) with _ | count
        · simpa [hscan] using hn
        · simp only [hscan, Option.map_eq_some_iff] at hn
          obtain ⟨m, hm, rfl⟩ := hn
          simp only [hnext (fragment_pos hscan) hle hm, Option.map_some]

section

variable
  (hquoted : startsQuoted (chars ++ (old ++ after)) →
    ∃ q, quoted (chars ++ (old ++ after)) = .ok q ∧ q.count ≤ chars.length)
  (hpieces : startsQuoted (chars ++ (old ++ after)) = false →
    startsInterpolated true (chars ++ (old ++ after)) →
    ∃ n, Scan.interpolatedKeyPieces (chars ++ (old ++ after)).length (chars ++ (old ++ after)) =
      some n ∧ n ≤ chars.length)

include hquoted hpieces

/-- A key that is closed in front of the gaps. -/
theorem Interchangeable.pairKey :
    pairKey (chars ++ (new ++ after)) = pairKey (chars ++ (old ++ after)) ∧
      ∀ n, pairKey (chars ++ (old ++ after)) = some n → n ≤ chars.length := by
  have hstart : startsQuoted (chars ++ (new ++ after)) =
      startsQuoted (chars ++ (old ++ after)) := by
    rw [h.new_separates.startsQuoted_append, h.old_separates.startsQuoted_append]
  rcases hquote : startsQuoted (chars ++ (old ++ after)) with _ | _
  · have hplain : startsQuoted chars = false := by
      rw [← h.old_separates.startsQuoted_append, hquote]
    rw [hquote] at hstart
    have hinterpolated : startsInterpolated true (chars ++ (new ++ after)) =
        startsInterpolated true (chars ++ (old ++ after)) := by
      rw [h.new_separates.startsInterpolated_append hplain,
        h.old_separates.startsInterpolated_append hplain]
    simp only [Scan.pairKey, hquote, hstart, hinterpolated, Bool.false_eq_true, if_false]
    split
    · rename_i hopen
      obtain ⟨n, hn, hle⟩ := hpieces hquote hopen
      have hsame := h.interpolatedKeyPieces (le_refl _) (le_refl _) hn hle
      rw [interpolatedKey, interpolatedKey, hn, hsame]
      refine ⟨rfl, fun m hm => ?_⟩
      rcases n with _ | n
      · cases hm
      · cases hm
        exact hle
    · rw [h.new_separates.word_append, h.old_separates.word_append]
      exact ⟨rfl, fun _ hn => (inline_word hn).le_length⟩
  · rw [hquote] at hstart
    obtain ⟨q, hq, hle⟩ := hquoted hquote
    have hsame := quoted_take_append hquote hq (chars.drop q.count ++ (new ++ after))
    rw [take_append_drop_append hle] at hsame
    simp only [Scan.pairKey, hquote, hstart, hq, hsame, if_true]
    exact ⟨trivial, fun _ hn => Option.some.inj hn ▸ hle⟩

/-- Whether a pair comes next, if the key is closed in front of the gaps. -/
theorem Interchangeable.startsPair :
    startsPair (chars ++ (old ++ after)) = startsPair (chars ++ (new ++ after)) := by
  obtain ⟨hsame, hle⟩ := h.pairKey hquoted hpieces
  rw [Scan.startsPair, Scan.startsPair, hsame]
  rcases hcount : Scan.pairKey (chars ++ (old ++ after)) with _ | count
  · rfl
  · have hlen := hle count hcount
    simp only [List.drop_append_of_le_length hlen]
    obtain ⟨-, heq | ⟨c, rest, hleft, hright⟩⟩ :=
      (Facing.before (chars.drop count)).drop_trivia h
    · rw [heq]
    · rw [hleft, hright]
      rfl

end

end Pairs

end Scan

end Mcfunction
