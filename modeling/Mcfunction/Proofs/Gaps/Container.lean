import Mcfunction.Proofs.Gaps.Leaf
import Mcfunction.Proofs.Parser.Command
import Mcfunction.Proofs.Shape.Fragments

/-!
# Containers in Front of a Gap

A container that ends at a gap is the same with another gap there. What a list holds is decided by
looking ahead, over a key and the trivia after it: if the list ends at the gap, its first key is
closed in front of it, and the trivia go on to the same place with either gap.

## Main results

* `value_local`, `list_local`, `compound_local`: values and containers, with any number of levels
  left.
* `pathFrom_local`: paths.
-/

namespace Mcfunction

variable {seam : Seam} {s : Settings} {c d : Cursor} {n : Nat}

namespace Seam

/-- The line ends with the one gap if and only if it does with the other. -/
theorem place_atLineEnd (c : Cursor) :
    Scan.atLineEnd (seam.place c).rest = Scan.atLineEnd c.rest := by
  rcases seam.place_cases c with ⟨chars, hrest, hplace⟩ | hsame
  · rw [hrest, hplace]
    rcases chars with _ | ⟨x, chars⟩
    · obtain ⟨x, rest, hold, hx⟩ := seam.interchangeable.old_separates.exists_cons
      obtain ⟨y, rest', hnew, hy⟩ := seam.interchangeable.new_separates.exists_cons
      simp [hold, hnew, Scan.atLineEnd, Scan.isGapChar_ne hx (y := '\n') (by decide),
        Scan.isGapChar_ne hy (y := '\n') (by decide)]
    · rfl
  · rw [hsame]

/-- The same character stands here with either gap, unless a gap starts here. -/
theorem place_peek_cases (seam : Seam) (c : Cursor) :
    (seam.place c).peek = c.peek ∨ ∃ x y, c.peek = some x ∧ (seam.place c).peek = some y ∧
      Scan.isGapChar x ∧ Scan.isGapChar y := by
  rcases seam.place_cases c with ⟨chars, hrest, hplace⟩ | hsame
  · rw [Cursor.peek, Cursor.peek, hrest, hplace]
    rcases chars with _ | ⟨x, chars⟩
    · obtain ⟨x, rest, hold, hx⟩ := seam.interchangeable.old_separates.exists_cons
      obtain ⟨y, rest', hnew, hy⟩ := seam.interchangeable.new_separates.exists_cons
      exact .inr ⟨x, y, by simp [hold], by simp [hnew], hx, hy⟩
    · exact .inl rfl
  · exact .inl (by rw [hsame])

/-- Whether a character stands here that starts no gap. -/
theorem place_peek_beq {x : Char} (hx : Scan.isGapChar x = false) :
    ((seam.place c).peek == some x) = (c.peek == some x) := by
  rcases seam.place_peek_cases c with hsame | ⟨y, z, hy, hz, hgap, hgap'⟩
  · rw [hsame]
  · simp [hy, hz, Scan.isGapChar_ne hgap hx, Scan.isGapChar_ne hgap' hx]

/-- What no character at the start of a gap is. -/
theorem place_peek_bind {α : Type} {f : Char → Option α}
    (hf : [' ', '\t', '\r', '\\'].any (fun x => (f x).isSome) = false) :
    (seam.place c).peek.bind f = c.peek.bind f := by
  have hgap : ∀ {x}, Scan.isGapChar x → f x = none := fun hx =>
    Option.not_isSome_iff_eq_none.mp
      (Bool.eq_false_iff.mp (Scan.isGapChar_not_mem (p := fun x => (f x).isSome) hx hf))
  rcases seam.place_peek_cases c with hsame | ⟨x, y, hx, hy, hold, hnew⟩
  · rw [hsame]
  · rw [hx, hy, Option.bind_some, Option.bind_some, hgap hold, hgap hnew]

/-- Behind trivia no gap starts. -/
theorem place_peek_of_trivia (h : Scan.trivia c.rest = 0) : (seam.place c).peek = c.peek := by
  rcases seam.place_cases c with ⟨chars, hrest, hplace⟩ | hsame
  · rcases chars with _ | ⟨x, chars⟩
    · rw [hrest, List.nil_append, seam.interchangeable.old_separates.trivia_eq] at h
      have := seam.interchangeable.old_separates.length_pos
      omega
    · rw [Cursor.peek, Cursor.peek, hrest, hplace]
      rfl
  · rw [hsame]

/-- The word at a place is the same with the other gap. -/
theorem place_word (c : Cursor) : Scan.word (seam.place c).rest = Scan.word c.rest :=
  seam.place_scan c fun h => h.word_append _

/-- The whole number at a place is the same with the other gap. -/
theorem place_wholeNumber (c : Cursor) :
    Scan.wholeNumber (seam.place c).rest = Scan.wholeNumber c.rest :=
  seam.place_scan c fun h => h.wholeNumber_append _

end Seam

namespace Parser

variable {bracket : Bracket} {opener opener' : Cursor}

/-! ### Inside a container -/

/-- Looking for content in front of the gap does not depend on it. -/
theorem expectContent_local :
    Local seam s c (expectContent bracket opener) (expectContent bracket opener') := by
  rw [expectContent, expectContent]
  refine .here_bind ?_
  rw [Seam.place_atLineEnd]
  split
  · exact .of_never unclosed_never
  · exact .pure ()

/-- Separators in front of the gap do not depend on it. -/
theorem separator_local :
    Local seam s c (separator bracket opener) (separator bracket opener') := by
  rw [separator, separator]
  refine .skipTrivia_bind (.here_bind ?_)
  rw [Seam.place_peek_of_trivia c.trivia_skipTrivia]
  rcases hpeek : c.skipTrivia.peek with _ | x
  · exact .of_never unclosed_never
  · have hone : 1 ≤ c.skipTrivia.rest.length := Cursor.length_pos_of_peek hpeek
    dsimp only
    split
    · refine .take_bind hone (.skipTrivia_bind (.here_bind ?_))
      rw [Seam.place_peek_beq (by cases bracket <;> rfl)]
      split
      · exact .of_never .failAt
      · exact expectContent_local.bind fun _ d _ => .pure false
    · split
      · exact .take_bind hone (.pure true)
      · split
        · exact .of_never unclosed_never
        · exact .of_never .failAt

/-- A separator has at least one character. -/
theorem separator_lt {closed : Bool} {log : List Event}
    (hrun : separator bracket opener s c = .done closed log d) : c < d := by
  have hnext : ∀ {x}, c.skipTrivia.peek = some x → c < c.skipTrivia.advance 1 := fun hpeek =>
    c.le_skipTrivia.trans_lt (Cursor.lt_advance Nat.one_pos (Cursor.length_pos_of_peek hpeek))
  cases separator_stop hrun with
  | close hpeek => exact hnext hpeek
  | comma hpeek => exact (hnext hpeek).trans_le (Cursor.le_skipTrivia _)

/-- The elements of a container do not depend on the gap behind them if each does not. -/
theorem elements_local {α : Type} {element element' : Parser α} {fuel fuel' : Nat}
    (helement : ∀ c, Local seam s c element element')
    (hfuel : c ≤ seam.cut → (seam.place c).rest.length < fuel') :
    Local seam s c (elements element bracket opener fuel)
      (elements element' bracket opener' fuel') := by
  induction fuel generalizing c fuel' with
  | zero => exact .breakOff _
  | succ fuel ih =>
      refine .of_turn hfuel fun k hk => ?_
      rw [elements, elements]
      refine (helement c).bind fun first d hcd => ?_
      refine separator_local.bind_of fun closed log e hrun _ => ?_
      have hce := hcd.trans_lt (separator_lt hrun)
      cases closed with
      | true => exact .pure [first]
      | false =>
          exact (ih (Seam.length_place_lt_of_turn hfuel hk hce)).bind fun more d _ => .pure _

/-! ### Keys and pairs -/

/-- Keys in front of the gap do not depend on it. -/
theorem key_local (c : Cursor) : Local seam s c key key := by
  rw [key]
  refine .here_bind (interpolated_or_local (fun _ _ => .pure _) ?_ fun hquote => ?_)
  · rw [Seam.place_startsQuoted, Seam.place_word]
    split
    · rename_i hquote
      exact (quotedString_local hquote).bind fun literal d _ => .pure _
    · rcases hscan : Scan.word c.rest with _ | n
      · exact .of_never unexpected_returns
      · exact (bareString_local (Scan.inline_word hscan).le_length).bind fun literal d _ => .pure _
  · rw [if_pos hquote]
    exact ⟨_, _, rfl, fun _ _ => .pure _⟩

/-- The sign between a key and its value does not depend on a gap behind it. -/
theorem operator_local : Local seam s c operator operator := by
  rw [operator]
  refine .here_bind ?_
  rw [Seam.place_peek_bind (by decide)]
  rcases hoperator : c.peek.bind PairOperator.ofChar? with _ | op
  · exact .of_never .failAt
  · obtain ⟨x, hpeek, -⟩ := Option.bind_eq_some_iff.mp hoperator
    exact .take_bind (Cursor.length_pos_of_peek hpeek) (.pure op)

end Parser

/-! ### Looking ahead over a key -/

namespace Scan

variable {inKey : Bool} {chars : List Char}

/-- A fragment of a key is no longer than one of a value, and no interpolation follows it if it is
shorter. -/
theorem repeated_fragmentStep_key (chars : List Char) :
    repeated (fragmentStep true) 0 chars ≤ repeated (fragmentStep false) 0 chars ∧
      (repeated (fragmentStep true) 0 chars < repeated (fragmentStep false) 0 chars →
        startsInterpolation (chars.drop (repeated (fragmentStep true) 0 chars)) = false) := by
  induction chars with
  | nil => exact ⟨le_rfl, fun h => absurd h (lt_irrefl _)⟩
  | cons x chars ih =>
      have hstep : fragmentStep true (x :: chars) = 0 ∨
          fragmentStep true (x :: chars) = 1 ∧ fragmentStep false (x :: chars) = 1 := by
        simp only [fragmentStep, Bool.false_and, Bool.or_false, Bool.true_and]
        split <;> simp_all
      rcases hstep with hzero | ⟨hkey, hvalue⟩
      · rw [repeated_of_step_zero hzero, List.drop_zero]
        refine ⟨Nat.zero_le _, fun hpos => ?_⟩
        rw [Bool.eq_false_iff]
        intro hstart
        rw [repeated_of_step_zero (fragmentStep_of_startsInterpolation hstart)] at hpos
        exact absurd hpos (lt_irrefl _)
      · have hturn : ∀ inKey, fragmentStep inKey (x :: chars) = 1 →
            repeated (fragmentStep inKey) 0 (x :: chars) =
              repeated (fragmentStep inKey) 0 chars + 1 := by
          intro inKey hone
          rw [repeated_of_step_pos (by omega) (by simp [hone]), hone, Nat.add_comm,
            List.drop_succ_cons, List.drop_zero]
        rw [hturn true hkey, hturn false hvalue, List.drop_succ_cons]
        exact ⟨Nat.succ_le_succ ih.1, fun h => ih.2 (Nat.lt_of_succ_lt_succ h)⟩

/-- Where there is no fragment, no step of one succeeds. -/
theorem fragment_eq_none (h : fragment inKey chars = none) :
    repeated (fragmentStep inKey) 0 chars = 0 := by
  unfold fragment at h
  split at h
  · rename_i hzero
    exact hzero
  · cases h

/-- A fragment goes as far as its steps do. -/
theorem fragment_of_repeated (h : repeated (fragmentStep inKey) 0 chars = n + 1) :
    fragment inKey chars = some (n + 1) := by
  rw [fragment, h]

/-- Where no step of a fragment succeeds, there is no fragment. -/
theorem fragment_of_repeated_zero (h : repeated (fragmentStep inKey) 0 chars = 0) :
    fragment inKey chars = none := by
  rw [fragment, h]

/-- A key ends where neither an interpolation nor a fragment starts. -/
theorem interpolatedKeyPieces_stop {fuel : Nat} (hstart : startsInterpolation chars = false)
    (hnone : fragment true chars = none) : interpolatedKeyPieces fuel chars = some 0 := by
  cases fuel with
  | zero => rfl
  | succ fuel => rw [interpolatedKeyPieces, hstart, if_neg Bool.false_ne_true, hnone]

end Scan

/-- If a key stands at `c`, it is closed at `d`. -/
structure ClosesKey (c d : Cursor) : Prop where
  /-- A quoted one ends there at the latest. -/
  quoted : Scan.startsQuoted c.rest →
    ∃ q, Scan.quoted c.rest = .ok q ∧ c.advance q.count ≤ d
  /-- So do the pieces of one that is not quoted. -/
  pieces : Scan.startsQuoted c.rest = false → Scan.startsInterpolated true c.rest →
    ∃ n, Scan.interpolatedKeyPieces c.rest.length c.rest = some n ∧ n ≤ c.rest.length ∧
      c.advance n ≤ d

/-- The pieces of a key at the start of interpolated text. -/
theorem FragmentsAt.keyPieces {inKey : Bool} {fragments : List Fragment}
    (h : FragmentsAt inKey c fragments d) {fuel : Nat} (hfuel : c.rest.length ≤ fuel) :
    ∃ n, Scan.interpolatedKeyPieces fuel c.rest = some n ∧ n ≤ c.rest.length ∧
      c.advance n ≤ d := by
  induction h generalizing fuel with
  | @nil c hstart hnone =>
      have hkey := (Scan.repeated_fragmentStep_key c.rest).1
      have hzero := Scan.fragment_eq_none hnone
      have hkeyNone : Scan.fragment true c.rest = none := by
        refine Scan.fragment_of_repeated_zero ?_
        cases inKey <;> omega
      exact ⟨0, Scan.interpolatedKeyPieces_stop hstart hkeyNone, Nat.zero_le _, le_rfl⟩
  | @interpolation c d n fragments hstart hok h ih =>
      obtain ⟨hpos, hline⟩ := Scan.inline_interpolation hstart hok
      have hlen := hline.le_length
      obtain ⟨fuel, rfl⟩ : ∃ k, fuel = k + 1 := ⟨fuel - 1, by omega⟩
      have hrest : (c.advance n).rest.length = c.rest.length - n := by
        rw [Cursor.advance_rest, List.length_drop]
      have hless : (c.advance n).rest.length ≤ fuel := by omega
      obtain ⟨m, hm, hmlen, hmd⟩ := ih hless
      rw [Cursor.advance_rest] at hm
      rw [Cursor.advance_advance] at hmd
      refine ⟨n + m, ?_, by omega, hmd⟩
      rw [Scan.interpolatedKeyPieces, if_pos hstart, hok]
      simp only [hm, Option.map_some]
  | @literal c d n fragments hstart hn h ih =>
      have hlen := (Scan.inline_fragment hn).le_length
      have hpos := Scan.fragment_pos hn
      have hend := (Cursor.le_advance hlen).trans h.within.le
      obtain ⟨fuel, rfl⟩ : ∃ k, fuel = k + 1 := ⟨fuel - 1, by omega⟩
      have hkey : Scan.repeated (Scan.fragmentStep true) 0 c.rest ≤ n ∧
          (Scan.repeated (Scan.fragmentStep true) 0 c.rest < n → Scan.startsInterpolation
            (c.rest.drop (Scan.repeated (Scan.fragmentStep true) 0 c.rest)) = false) := by
        have hn := Scan.fragment_eq_some hn
        cases inKey with
        | false => exact hn ▸ Scan.repeated_fragmentStep_key c.rest
        | true => exact ⟨hn.le, fun h => absurd (hn ▸ h) (lt_irrefl _)⟩
      obtain ⟨hle, hshorter⟩ := hkey
      generalize hj : Scan.repeated (Scan.fragmentStep true) 0 c.rest = j at hle hshorter
      rcases j with _ | j
      · exact ⟨0, Scan.interpolatedKeyPieces_stop hstart (Scan.fragment_of_repeated_zero hj),
          Nat.zero_le _, hend⟩
      · have hfragment := Scan.fragment_of_repeated hj
        -- the pieces after the first fragment of the key
        have hnext : ∃ m, Scan.interpolatedKeyPieces fuel (c.rest.drop (j + 1)) = some m ∧
            j + 1 + m ≤ c.rest.length ∧ c.advance (j + 1 + m) ≤ d := by
          rcases hle.lt_or_eq with hlt | heq
          · refine ⟨0, Scan.interpolatedKeyPieces_stop (hshorter hlt)
              (Scan.fragment_drop_fragment hfragment), by omega, ?_⟩
            exact (Cursor.advance_le_advance hle hlen).trans h.within.le
          · have hrest : (c.advance n).rest.length = c.rest.length - n := by
              rw [Cursor.advance_rest, List.length_drop]
            have hless : (c.advance n).rest.length ≤ fuel := by omega
            obtain ⟨m, hm, hmlen, hmd⟩ := ih hless
            rw [Cursor.advance_rest] at hm
            rw [Cursor.advance_advance] at hmd
            exact ⟨m, heq ▸ hm, by omega, heq ▸ hmd⟩
        obtain ⟨m, hm, hmlen, hmd⟩ := hnext
        refine ⟨j + 1 + m, ?_, hmlen, hmd⟩
        rw [Scan.interpolatedKeyPieces, hstart, if_neg Bool.false_ne_true, hfragment]
        simp only [hm, Option.map_some]

/-- A key that is closed in front of a place is closed in front of any that is further on. -/
theorem ClosesKey.mono {e : Cursor} (h : ClosesKey c d) (hde : d ≤ e) : ClosesKey c e := by
  constructor
  · intro hquoted
    obtain ⟨q, hq, hle⟩ := h.quoted hquoted
    exact ⟨q, hq, hle.trans hde⟩
  · intro hquoted hstart
    obtain ⟨n, hn, hlen, hle⟩ := h.pieces hquoted hstart
    exact ⟨n, hn, hlen, hle.trans hde⟩

/-- A macro argument that is read as a key is closed where it ends. -/
theorem InterpolatedAt.closesKey {inKey : Bool} {argument : Interpolated}
    (h : InterpolatedAt inKey c argument d) : ClosesKey c d := by
  cases h with
  | @quoted q fragments hquoted hscan =>
      exact ⟨fun _ => ⟨q, hscan, le_rfl⟩, fun hbare => (nomatch hquoted.symm.trans hbare)⟩
  | bare hbare _ h =>
      exact ⟨fun hquoted => (nomatch hquoted.symm.trans hbare), fun _ _ => h.keyPieces le_rfl⟩

/-- A key is closed where it ends. -/
theorem KeyAt.closesKey {key : NbtKey} (h : KeyAt c key d) : ClosesKey c d := by
  cases h with
  | interpolated _ h => exact h.closesKey
  | @quoted q _ hquoted hscan =>
      exact ⟨fun _ => ⟨q, hscan, le_rfl⟩, fun hbare => (nomatch hquoted.symm.trans hbare)⟩
  | bare hplain hbare =>
      exact ⟨fun hquoted => (nomatch hquoted.symm.trans hbare),
        fun _ hstart => (nomatch hstart.symm.trans hplain)⟩

/-- Whether a pair comes next is the same with either gap if its key is closed in front of it. -/
theorem Seam.place_startsPair (h : ClosesKey c d) (hcd : c ≤ d) (hd : d ≤ seam.cut) :
    Scan.startsPair (seam.place c).rest = Scan.startsPair c.rest := by
  obtain ⟨chars, hrest, hplace⟩ := exists_before (hcd.trans hd)
  have hle : ∀ {n}, n ≤ c.rest.length → c.advance n ≤ d → n ≤ chars.length := fun hn hnd =>
    le_length hn (hnd.trans hd) hrest
  have hquoted := h.quoted
  have hpieces := h.pieces
  have hlen := @Scan.inline_quoted c.rest
  rw [hrest] at hquoted hpieces hlen hle
  rw [hrest, hplace]
  refine (seam.interchangeable.startsPair (fun hquote => ?_) fun hquote hstart => ?_).symm
  · obtain ⟨q, hq, hqd⟩ := hquoted hquote
    exact ⟨q, hq, hle (hlen hquote hq).le_length hqd⟩
  · obtain ⟨n, hn, hnlen, hnd⟩ := hpieces hquote hstart
    exact ⟨n, hn, hle hnlen hnd⟩

namespace Parser

variable {bracket : Bracket} {opener opener' : Cursor}

/-- A container's elements end behind the first of them. -/
theorem elements_first {α : Type} {element element' : Parser α} {fuel : Nat} {values : List α}
    {log : List Event} (helement : ∀ c, Local seam s c element element')
    (hrun : elements element bracket opener fuel s c = .done values log d) :
    ∃ first log' e, element s c = .done first log' e ∧ e ≤ d := by
  cases fuel with
  | zero => cases hrun
  | succ fuel =>
      rw [elements, bind_run] at hrun
      obtain ⟨first, log', e, later, hfirst, hnext, -⟩ := Outcome.andThen_eq_done hrun
      refine ⟨first, log', e, hfirst, ?_⟩
      rw [bind_run] at hnext
      obtain ⟨closed, _, e', _, hseparator, hmore, -⟩ := Outcome.andThen_eq_done hnext
      have he := (separator_lt hseparator).le
      cases closed with
      | true =>
          cases hmore
          exact he
      | false =>
          simp only [Bool.false_eq_true, if_false, bind_run] at hmore
          obtain ⟨more, _, e'', _, helements, hpure, -⟩ := Outcome.andThen_eq_done hmore
          cases hpure
          have hlocal : Local seam s e' (elements element bracket opener fuel)
              (elements element' bracket opener _) :=
            elements_local helement fun _ => Nat.lt_succ_self _
          exact he.trans (hlocal _ _ _ helements).1

section Values

variable {value value' : Parser NbtValue} (hvalue : ∀ c, Local seam s c value value')

include hvalue

/-- Pairs in front of the gap do not depend on it if their values do not. -/
theorem pair_local (c : Cursor) : Local seam s c (pair value) (pair value') := by
  rw [pair, pair]
  refine .here_bind ((key_local c).bind fun key d _ => .skipTrivia_bind ?_)
  refine operator_local.bind fun operator d _ => .skipTrivia_bind ?_
  refine (hvalue _).bind fun inner d _ => ?_
  rw [Seam.place_offset]
  exact (Local.spanFrom _).bind fun place d _ => .pure _

/-- The key of a pair is closed where the pair ends. -/
theorem pair_closesKey {pair' : NbtPair} {log : List Event}
    (hrun : pair value s c = .done pair' log d) : ClosesKey c d := by
  rw [pair, bind_done here_run, bind_run] at hrun
  obtain ⟨key, _, e, _, hkey, hnext, -⟩ := Outcome.andThen_eq_done hrun
  have hclosed := ((key_steady c).post_of_run hkey).closesKey
  refine hclosed.mono ?_
  have hrest : Local seam s e (do
      skipTrivia
      let operator ← operator
      skipTrivia
      let value ← value
      return (⟨key, operator, value, ← spanFrom c.offset⟩ : NbtPair)) (do
      skipTrivia
      let operator ← operator
      skipTrivia
      let value ← value'
      return ⟨key, operator, value, ← spanFrom c.offset⟩) :=
    .skipTrivia_bind (operator_local.bind fun _ _ _ => .skipTrivia_bind
      ((hvalue _).bind fun _ _ _ => (Local.spanFrom _).bind fun _ _ _ => .pure _))
  exact (hrest _ _ _ hnext).1

variable (hcloses : ∀ {c inner log d}, value s c = .done inner log d → ClosesKey c d)

include hcloses

omit hvalue hcloses in
/-- A key that the first element closes is closed where what comes after the elements ends. -/
theorem elements_bind_closesKey {α β : Type} {element element' : Parser α} {fuel : Nat}
    {f g : List α → Parser β} {result : β} {log : List Event}
    (helement : ∀ c, Local seam s c element element')
    (hcloses : ∀ {first log d}, element s c = .done first log d → ClosesKey c d)
    (hf : ∀ values d, Local seam s d (f values) (g values))
    (hrun : (elements element bracket opener fuel >>= f) s c = .done result log d) :
    ClosesKey c d := by
  rw [bind_run] at hrun
  obtain ⟨values, _, e, _, helements, hrest, -⟩ := Outcome.andThen_eq_done hrun
  obtain ⟨first, _, e', hfirst, he⟩ := elements_first helement helements
  exact (hcloses hfirst).mono (he.trans (hf _ _ _ _ _ hrest).1)

/-- What a list holds: looking ahead finds the same with either gap if the list ends in front of
it. -/
theorem items_bind_local {α : Type} {fuel fuel' : Nat} {f : NbtItems → Parser α}
    (hfuel : c ≤ seam.cut → (seam.place c).rest.length < fuel')
    (hf : ∀ items d, Local seam s d (f items) (f items)) :
    Local seam s c
      (if Scan.startsPair c.rest then
        NbtItems.pairs <$> elements (pair value) .square opener fuel >>= f
      else NbtItems.values <$> elements value .square opener fuel >>= f)
      (if Scan.startsPair (seam.place c).rest then
        NbtItems.pairs <$> elements (pair value') .square opener' fuel' >>= f
      else NbtItems.values <$> elements value' .square opener' fuel' >>= f) := by
  have hpairs : Local seam s c (elements (pair value) .square opener fuel)
      (elements (pair value') .square opener' fuel') :=
    elements_local (pair_local hvalue) hfuel
  have hvalues : Local seam s c (elements value .square opener fuel)
      (elements value' .square opener' fuel') :=
    elements_local hvalue hfuel
  simp only [map_bind]
  by_cases hpair : Scan.startsPair c.rest
  · rw [if_pos hpair]
    intro result log d hrun
    obtain ⟨hcd, hnext⟩ := (hpairs.bind fun pairs d _ => hf (.pairs pairs) d) _ _ _ hrun
    have hclosed := elements_bind_closesKey (pair_local hvalue) (pair_closesKey hvalue)
      (fun pairs d => hf (.pairs pairs) d) hrun
    refine ⟨hcd, fun hd => ?_⟩
    rw [Seam.place_startsPair hclosed hcd hd, if_pos hpair]
    exact hnext hd
  · rw [if_neg hpair]
    intro result log d hrun
    obtain ⟨hcd, hnext⟩ := (hvalues.bind fun values d _ => hf (.values values) d) _ _ _ hrun
    have hclosed := elements_bind_closesKey hvalue hcloses (fun values d => hf (.values values) d)
      hrun
    refine ⟨hcd, fun hd => ?_⟩
    rw [Seam.place_startsPair hclosed hcd hd, if_neg hpair]
    exact hnext hd

/-- Lists in front of the gap do not depend on it if their values do not. -/
theorem listOf_local (hpeek : c.peek = some '[') :
    Local seam s c (listOf value) (listOf value') := by
  rw [listOf, listOf]
  refine .here_bind (.take_bind (Cursor.length_pos_of_peek hpeek) (.skipTrivia_bind
    (.here_bind ?_)))
  rw [Seam.place_peek_beq (by decide), Seam.place_offset]
  split
  · rename_i hclose
    refine .take_bind (Cursor.length_pos_of_peek (beq_iff_eq.mp hclose)) ?_
    exact (Local.spanFrom _).bind fun place d _ => .pure _
  · refine expectContent_local.bind_of fun _ log d hrun _ => ?_
    obtain rfl := expectContent_stop hrun
    exact items_bind_local hvalue hcloses (fun _ => Nat.lt_succ_self _) fun items d =>
      (Local.spanFrom _).bind fun place d _ => .pure _

omit hcloses in
/-- Compounds in front of the gap do not depend on it if their values do not. -/
theorem compoundOf_local (hpeek : c.peek = some '{') :
    Local seam s c (compoundOf value) (compoundOf value') := by
  rw [compoundOf, compoundOf]
  refine .here_bind (.take_bind (Cursor.length_pos_of_peek hpeek) (.skipTrivia_bind
    (.here_bind ?_)))
  rw [Seam.place_peek_beq (by decide), Seam.place_offset]
  split
  · exact .of_never failAt_never
  · refine expectContent_local.bind_of fun _ log d hrun _ => ?_
    obtain rfl := expectContent_stop hrun
    refine (elements_local (pair_local hvalue) fun _ => Nat.lt_succ_self _).bind
      fun pairs d _ => ?_
    exact (Local.spanFrom _).bind fun place d _ => .pure _

end Values

/-! ### Values -/

/-- A resource location is found with both gaps or with neither, with the same lengths. -/
theorem location_place (c : Cursor) :
    ((Scan.resourceNamespace (seam.place c).rest).bind fun space =>
      (Scan.path ((seam.place c).rest.drop (space + 1))).map fun path => (space, path)) =
      (Scan.resourceNamespace c.rest).bind fun space =>
        (Scan.path (c.rest.drop (space + 1))).map fun path => (space, path) := by
  rw [Seam.place_resourceNamespace]
  refine Option.bind_congr fun space hspace => ?_
  rw [Seam.place_path hspace]

/-- Values that hold no others and end in front of the gap do not depend on it. -/
theorem scalar_local : Local seam s c scalar scalar := by
  rw [scalar]
  refine .here_bind ?_
  dsimp only
  rw [location_place, Seam.place_wholeNumber, Seam.place_word]
  split
  · rename_i space path _ hlocation
    obtain ⟨hspace, hpath⟩ := location_eq_some hlocation
    exact (resourceLocation_local hspace hpath).bind fun location d _ => .pure _
  · rename_i n suffix _ _ hnumber
    exact (number_local hnumber).bind fun number d _ => .pure _
  · rename_i n _ _ hword
    refine (bareString_local (Scan.inline_word hword).le_length).bind fun word d _ => ?_
    split <;> exact .pure _
  · exact .of_never unexpected_returns

/-- What a value does that is no interpolated text. -/
theorem valueOf_closesKey {list : Parser NbtList} {compound : Parser NbtCompound}
    {inner : NbtValue} {log : List Event}
    (hrun : valueOf list compound s c = .done inner log d) : ClosesKey c d := by
  rw [valueOf, bind_done here_run] at hrun
  split at hrun
  · rename_i hstart
    rw [bind_run] at hrun
    obtain ⟨argument, _, e, _, hargument, hpure, -⟩ := Outcome.andThen_eq_done hrun
    cases hpure
    exact ((interpolated_steady (.refl c) hstart).post_of_run hargument).closesKey
  · rename_i hstart
    refine ⟨fun hquoted => ?_, fun hquoted hkey =>
      absurd (startsInterpolated_of_key hkey) hstart⟩
    have hstring : (quotedString >>= fun literal => Pure.pure (NbtValue.string literal)) s c =
        .done inner log d := by
      obtain ⟨body, hrest | hrest⟩ := Scan.startsQuoted_iff.mp hquoted
      · rwa [Cursor.peek_of_cons hrest] at hrun
      · rwa [Cursor.peek_of_cons hrest] at hrun
    rcases hscan : Scan.quoted c.rest with error | q
    · rw [bind_failed (quotedString_failed hscan)] at hstring
      cases hstring
    · rw [bind_done (quotedString_run hquoted hscan)] at hstring
      cases hstring
      exact ⟨q, rfl, le_rfl⟩

/-- In a strict parse there are no placeholders. -/
theorem orPlaceholder_local {α : Type} {p p' : Parser α} {placeholder placeholder' : ErrorNode → α}
    (hs : s.mode = .strict) (hp : Local seam s c p p') :
    Local seam s c (orPlaceholder p placeholder) (orPlaceholder p' placeholder') := by
  refine .orElse (fun error value log d hrun => ?_) hp
  rw [bind_done settings_run] at hrun
  simp only [hs] at hrun
  cases hrun

/-- Values in front of the gap do not depend on it if lists and compounds do not. -/
theorem valueOf_local {list list' : Parser NbtList} {compound compound' : Parser NbtCompound}
    (hs : s.mode = .strict) (hlist : c.peek = some '[' → Local seam s c list list')
    (hcompound : c.peek = some '{' → Local seam s c compound compound') :
    Local seam s c (valueOf list compound) (valueOf list' compound') := by
  rw [valueOf, valueOf]
  refine .here_bind (interpolated_or_local (fun _ _ => .pure _) ?_ fun hquote => ?_)
  · rcases seam.place_peek_cases c with hsame | ⟨x, y, hx, hy, hgap, hgap'⟩
    · rw [hsame]
      split
      · rename_i hpeek
        exact (quotedString_local (startsQuoted_of_peek hpeek (.inl rfl))).bind
          fun literal d _ => .pure _
      · rename_i hpeek
        exact (quotedString_local (startsQuoted_of_peek hpeek (.inr rfl))).bind
          fun literal d _ => .pure _
      · rename_i hpeek
        exact orPlaceholder_local hs (hlist hpeek).map
      · rename_i hpeek
        exact orPlaceholder_local hs (hcompound hpeek).map
      iterate 5 exact .of_never .fail
      · exact scalar_local
    · rw [hx, hy]
      rcases Scan.isGapChar_iff.mp hgap with rfl | rfl | rfl | rfl <;>
        rcases Scan.isGapChar_iff.mp hgap' with rfl | rfl | rfl | rfl <;> exact scalar_local
  · obtain ⟨body, hrest | hrest⟩ := Scan.startsQuoted_iff.mp hquote
    · rw [Cursor.peek_of_cons hrest]
      exact ⟨_, _, rfl, fun _ _ => .pure _⟩
    · rw [Cursor.peek_of_cons hrest]
      exact ⟨_, _, rfl, fun _ _ => .pure _⟩

/-- A container that is cut off is never read. -/
theorem containerTooDeep_never {α : Type} :
    Returns (containerTooDeep : Parser α) fun _ => False :=
  .andThen fun _ => .andThen fun _ => .failAt

/-- What could be the key of a pair is closed where a value ends. -/
theorem value_closesKey (room : Nat) {inner : NbtValue} {log : List Event}
    (hrun : value room s c = .done inner log d) : ClosesKey c d := by
  rw [value_eq] at hrun
  exact valueOf_closesKey hrun

/-- Values in front of the gap do not depend on it, whatever room for nesting is left. -/
theorem value_local (hs : s.mode = .strict) (room : Nat) (c : Cursor) :
    Local seam s c (value room) (value room) := by
  induction room generalizing c with
  | zero =>
      rw [value_zero]
      exact valueOf_local hs (fun _ => .of_never containerTooDeep_never)
        fun _ => .of_never containerTooDeep_never
  | succ room ih =>
      rw [value_succ]
      exact valueOf_local hs (listOf_local ih (value_closesKey room)) (compoundOf_local ih)

/-- Lists in front of the gap do not depend on it, whatever room for nesting is left. -/
theorem list_local (hs : s.mode = .strict) (room : Nat) (hpeek : c.peek = some '[') :
    Local seam s c (list room) (list room) := by
  cases room with
  | zero => exact .of_never containerTooDeep_never
  | succ room => exact listOf_local (value_local hs room) (value_closesKey room) hpeek

/-- Compounds in front of the gap do not depend on it, whatever room for nesting is left. -/
theorem compound_local (hs : s.mode = .strict) (room : Nat) (hpeek : c.peek = some '{') :
    Local seam s c (compound room) (compound room) := by
  cases room with
  | zero => exact .of_never containerTooDeep_never
  | succ room => exact compoundOf_local (value_local hs room) hpeek

/-! ### Paths -/

/-- Suffixes of a key in front of the gap do not depend on it. -/
theorem suffixes_local {limit room fuel fuel' : Nat}
    (hfuel : c ≤ seam.cut → (seam.place c).rest.length < fuel') :
    Local seam ⟨limit, .strict⟩ c (suffixes (containers room) fuel)
      (suffixes (containers room) fuel') := by
  induction fuel generalizing c fuel' with
  | zero => exact .breakOff _
  | succ fuel ih =>
      refine .of_turn hfuel fun k hk => ?_
      rw [suffixes, suffixes]
      refine .here_bind ?_
      rcases seam.place_peek_cases c with hsame | ⟨x, y, hx, hy, hgap, hgap'⟩
      · rw [hsame]
        split
        · rename_i hpeek
          refine (list_local rfl room hpeek).bind_of fun index log d hrun _ => ?_
          have hlt := ((list_reads room hpeek).post_of_run hrun).placed.lt
          exact (ih (Seam.length_place_lt_of_turn hfuel hk hlt)).bind fun more d _ => .pure _
        · rename_i hpeek
          refine (compound_local rfl room hpeek).bind_of fun filter log d hrun _ => ?_
          have hlt := ((compound_reads room hpeek).post_of_run hrun).placed.lt
          exact (ih (Seam.length_place_lt_of_turn hfuel hk hlt)).bind fun more d _ => .pure _
        · exact .pure []
      · rw [hx, hy]
        rcases Scan.isGapChar_iff.mp hgap with rfl | rfl | rfl | rfl <;>
          rcases Scan.isGapChar_iff.mp hgap' with rfl | rfl | rfl | rfl <;> exact .pure []

/-- Names of segments in front of the gap do not depend on it. -/
theorem segmentName_local : Local seam s c segmentName segmentName := by
  have hsame : (Scan.startsQuoted (seam.place c).rest ||
      Scan.startsInterpolated true (seam.place c).rest || (Scan.word (seam.place c).rest).isSome) =
      (Scan.startsQuoted c.rest || Scan.startsInterpolated true c.rest ||
        (Scan.word c.rest).isSome) := by
    rw [Seam.place_startsQuoted, Seam.place_word]
    by_cases hquoted : Scan.startsQuoted c.rest
    · simp [hquoted]
    · rw [Seam.place_startsInterpolated (by simpa using hquoted)]
  rw [segmentName]
  refine .here_bind ?_
  rw [hsame]
  split
  · exact key_local c
  · exact .of_never unexpected_returns

/-- Segments of a path in front of the gap do not depend on it. -/
theorem segments_local {limit room fuel fuel' : Nat} {name : NbtKey}
    (hfuel : c ≤ seam.cut → (seam.place c).rest.length < fuel') :
    Local seam ⟨limit, .strict⟩ c (segments (containers room) fuel name)
      (segments (containers room) fuel' name) := by
  induction fuel generalizing c fuel' name with
  | zero => exact .breakOff _
  | succ fuel ih =>
      refine Local.of_turn (f := fun turns => segments (containers room) turns name) hfuel
        fun k hk => ?_
      rw [segments, segments]
      refine .here_bind ?_
      refine (suffixes_local fun _ => Nat.lt_succ_self _).bind fun suffixes d hcd => ?_
      refine (Local.spanFrom _).bind_of fun place log e hrun hde => .here_bind ?_
      rw [Seam.place_peek_beq (by decide)]
      split
      · rename_i hpoint
        have hone := Cursor.length_pos_of_peek (beq_iff_eq.mp hpoint)
        have hlt := (hcd.trans hde).trans_lt (Cursor.lt_advance Nat.one_pos hone)
        refine .take_bind hone (segmentName_local.bind fun next f hf => ?_)
        have hcf := hlt.trans_le hf
        exact (ih (Seam.length_place_lt_of_turn hfuel hk hcf)).bind fun more f _ => .pure _
      · exact .pure _

/-- Paths in front of the gap do not depend on it. -/
theorem pathFrom_local {limit room : Nat} {name : NbtKey} :
    Local seam ⟨limit, .strict⟩ c (pathFrom (containers room) name)
      (pathFrom (containers room) name) := by
  rw [pathFrom]
  refine .here_bind ((segments_local fun _ => Nat.lt_succ_self _).bind fun segments d _ => ?_)
  exact (Local.spanFrom _).bind fun place d _ => .pure _

end Parser

end Mcfunction
