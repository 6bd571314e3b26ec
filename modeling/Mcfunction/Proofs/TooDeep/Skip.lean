import Mcfunction.Proofs.Bracketed.Text
import Mcfunction.Proofs.Faithful
import Mcfunction.Proofs.Shape.Fragments
import Mcfunction.Tree.TooDeep

/-!
# What Recovery Skips of What Is Read

The chunk that recovery skips from the start of a container ends where the container does, if
recovery takes the same characters for brackets and quotes as the parser. So it is with everything
in a container but interpolated text outside quotes, which must have no brackets and quotes, and
placeholders.

`Passes closers c d` says that the chunk with the closing brackets `closers` wanted goes on from `c`
to `d`. Tokens and strings pass whatever is wanted, and all else if anything is: with no bracket
open a chunk ends at blanks.

## Main results

* `ValueAt.skips`: values.
* `ListAt.boxed`, `CompoundAt.boxed`: containers, which end the chunk if none is around them.
* `KeyAt.passes_of_startsPathSuffix`: names of path segments with something behind them.
-/

namespace Mcfunction

variable {closers : List Char} {c d e : Cursor} {n room : Nat}

namespace Scan

/-- Solid characters are no blanks. -/
theorem isBlank_of_isSolidChar {x : Char} (hx : isSolidChar x) : isBlank x = false := by
  rw [Bool.eq_false_iff]
  intro hblank
  simp only [isBlank, Bool.or_eq_true, beq_iff_eq] at hblank
  rcases hblank with (rfl | rfl) | rfl <;> cases hx

/-! ### Where no continuation starts -/

variable {chars : List Char}

/-- No continuation starts within a fragment. -/
theorem continuation_drop_of_fragment {inKey : Bool}
    (h : fragment inKey chars = some n) : ∀ k < n, continuation (chars.drop k) = none := by
  rw [← fragment_eq_some h]
  refine repeated_induction
    (motive := fun chars n => ∀ k < n, continuation (chars.drop k) = none)
    (fragmentStep_le_length inKey) (fun _ _ k hk => absurd hk (Nat.not_lt_zero k)) ?_ chars
  intro chars n hpos ih k hk
  have hstep : fragmentStep inKey chars = 1 ∧ continuation chars = none := by
    unfold fragmentStep at hpos ⊢
    split at hpos
    · cases hpos
    · split at hpos
      · cases hpos
      · rename_i hends
        rw [if_neg hends]
        simp only [Bool.or_eq_true, not_or, Bool.not_eq_true, Option.isSome_eq_false_iff,
          Option.isNone_iff_eq_none] at hends
        exact ⟨rfl, hends.2⟩
  rw [hstep.1] at ih hk
  cases k with
  | zero => exact hstep.2
  | succ k =>
      rw [Nat.add_comm, ← List.drop_drop]
      exact ih k (by omega)

/-- A continuation in text that is closed on its line would reach over what closes it, since the
line breaks behind that. -/
theorem continuation_drop_of_closed {m : Nat} {x : Char} {tail : List Char}
    (hline : Inline chars (m + 1)) (hclose : chars.drop m = x :: tail) (hblank : isBlank x = false)
    (hslash : x ≠ '\\') : ∀ k < m + 1, continuation (chars.drop k) = none := by
  intro k hk
  rcases hcontinuation : continuation (chars.drop k) with _ | j
  · rfl
  · exfalso
    obtain ⟨gap, rest, heq, hgap, -⟩ := continuation_eq_some hcontinuation
    have hx : (chars.drop k)[m - k]? = some x := by
      rw [List.getElem?_drop, Nat.add_sub_cancel' (Nat.le_of_lt_succ hk), ← List.head?_drop, hclose]
      rfl
    have hbreak : m - k ≤ gap.length := by
      by_contra hlt
      refine hline.newline_notMem (List.mem_of_getElem? (i := k + (gap.length + 1)) ?_)
      rw [List.getElem?_take_of_lt (by omega), ← List.getElem?_drop, heq]
      simp
    rw [heq] at hx
    rcases hindex : m - k with _ | i
    · rw [hindex] at hx
      exact hslash (Option.some.inj hx).symm
    · rw [hindex, List.getElem?_cons_succ, List.getElem?_append_left (by omega)] at hx
      rw [hgap _ (List.mem_of_getElem? hx)] at hblank
      cases hblank

/-- No continuation starts within an interpolation. -/
theorem continuation_drop_of_interpolation (hstart : startsInterpolation chars)
    (h : interpolation chars = .ok n) : ∀ k < n, continuation (chars.drop k) = none := by
  obtain ⟨j, tail, rfl, hline, hclose⟩ := interpolation_eq_ok hstart h
  exact continuation_drop_of_closed hline hclose rfl (by decide)

/-- No continuation starts within a quoted string. -/
theorem continuation_drop_of_quoted {q : Quoted} (hstart : startsQuoted chars)
    (h : quoted chars = .ok q) : ∀ k < q.count, continuation (chars.drop k) = none := by
  have hclosed : ∀ {quote body}, quote ≠ '\n' → isBlank quote = false → quote ≠ '\\' →
      quoted (quote :: body) = .ok q →
      ∀ k < q.count, continuation ((quote :: body).drop k) = none := by
    intro quote body hnewline hblank hslash h
    obtain ⟨k, tail, hbefore, hline, hclose⟩ := quoted_eq_ok hnewline h
    have hcount : q.count = k + 1 + 1 := by rw [Quoted.count, hbefore]
    rw [hcount] at hline ⊢
    exact continuation_drop_of_closed hline hclose hblank hslash
  obtain ⟨body, rfl | rfl⟩ := startsQuoted_iff.mp hstart
  · exact hclosed (by decide) rfl (by decide) h
  · exact hclosed (by decide) rfl (by decide) h

end Scan

/-! ### Going on -/

/-- With the closing brackets `closers` wanted, the chunk goes on from the one place to the
other. -/
def Passes (closers : List Char) (c d : Cursor) : Prop :=
  ∃ n, d = c.advance n ∧
    Scan.balancedChunk closers 0 c.rest = n + Scan.balancedChunk closers 0 d.rest

/-- The chunk goes on from the one place to the other if any bracket is open. -/
def PassesInside (c d : Cursor) : Prop :=
  ∀ closers, closers ≠ [] → Passes closers c d

namespace Passes

/-- A chunk goes on from a place to that place. -/
theorem refl (closers : List Char) (c : Cursor) : Passes closers c c :=
  ⟨0, c.advance_zero.symm, (Nat.zero_add _).symm⟩

/-- A chunk that goes on twice goes on from the first place to the last. -/
theorem trans (h : Passes closers c d) (h' : Passes closers d e) : Passes closers c e := by
  obtain ⟨m, rfl, hm⟩ := h
  obtain ⟨n, rfl, hn⟩ := h'
  exact ⟨m + n, Cursor.advance_advance _ _ _, by rw [hm, hn, Nat.add_assoc]⟩

/-- A chunk goes forward, as long as text is left. -/
theorem le {x : Char} (h : Passes closers c d) (hpeek : d.peek = some x) : c ≤ d := by
  obtain ⟨n, rfl, -⟩ := h
  have hpos := Cursor.length_pos_of_peek hpeek
  rw [Cursor.advance_rest, List.length_drop] at hpos
  exact Cursor.le_advance (by omega)

/-- A turn of the chunk that opens and closes nothing goes on behind it. -/
theorem of_turn (h : Scan.balancedTurn closers c.rest = .next n closers) :
    Passes closers c (c.advance n) :=
  ⟨n, rfl, by rw [Scan.balancedChunk_of_next h, Cursor.advance_rest]⟩

/-- A character that is neither bracket nor quote and starts no continuation. -/
theorem char {x : Char} {tail : List Char} (hrest : c.rest = x :: tail)
    (hx : isBracketOrQuote x = false) (hline : x ≠ '\n')
    (hcontinuation : Scan.continuation c.rest = none)
    (hopen : closers ≠ [] ∨ Scan.isBlank x = false) : Passes closers c (c.advance 1) := by
  have hne : ∀ y, isBracketOrQuote y → x ≠ y := by
    rintro y hy rfl
    rw [hx] at hy
    cases hy
  have hblank : (Scan.isBlank x && closers.isEmpty) = false := by
    rw [Bool.and_eq_false_iff, List.isEmpty_eq_false_iff]
    exact hopen.symm
  refine of_turn ?_
  rw [hrest] at hcontinuation ⊢
  simp [Scan.balancedTurn, hcontinuation, hblank, hline, hne '"' rfl, hne '\'' rfl, hne '[' rfl,
    hne '{' rfl, hne ']' rfl, hne '}' rfl]

/-- A character with no meaning of its own; where no bracket is open it must be no blank. -/
theorem peek {x : Char} (h : c.peek = some x) (hx : Scan.isPlain x)
    (hopen : closers ≠ [] ∨ Scan.isBlank x = false) : Passes closers c (c.advance 1) := by
  obtain ⟨tail, hrest⟩ := List.head?_eq_some_iff.mp h
  exact of_turn (hrest ▸ Scan.balancedTurn_plain hx hopen)

/-- Characters of words and numbers. -/
theorem solid (h : Scan.Taken Scan.isSolidChar c.rest n) : Passes closers c (c.advance n) := by
  induction n generalizing c with
  | zero => exact refl closers c
  | succ n ih =>
      rcases hrest : c.rest with _ | ⟨x, tail⟩
      · rw [hrest] at h
        cases h.le_length
      · rw [hrest] at h
        obtain ⟨hx, htail⟩ := h.of_cons
        have hfirst : Passes closers c (c.advance 1) := peek (Cursor.peek_of_cons hrest)
          (Scan.isPlain_of_isSolidChar hx) (.inr (Scan.isBlank_of_isSolidChar hx))
        have hnext : Scan.Taken Scan.isSolidChar (c.advance 1).rest n := by
          rwa [Cursor.advance_rest, hrest]
        have hpass := hfirst.trans (ih hnext)
        rwa [Cursor.advance_advance, Nat.add_comm] at hpass

/-- Characters of tokens pass, whatever brackets are open. -/
theorem token (h : Scan.Taken Scan.isTokenChar c.rest n) : Passes closers c (c.advance n) :=
  solid (h.mono fun _ => Scan.isSolidChar_of_isTokenChar)

/-- A string. -/
theorem string {q : Scan.Quoted} (hstart : Scan.startsQuoted c.rest)
    (h : Scan.quoted c.rest = .ok q) : Passes closers c (c.advance q.count) := by
  refine of_turn ?_
  obtain ⟨x, tail, hrest, hx⟩ := Scan.exists_of_startsQuoted hstart
  rw [hrest] at h ⊢
  rcases hx with rfl | rfl
  · simp [Scan.balancedTurn, Scan.continuation, Scan.isBlank, h]
  · simp [Scan.balancedTurn, Scan.continuation, Scan.isBlank, h]

end Passes

namespace PassesInside

/-- A chunk in brackets goes on from a place to that place. -/
theorem refl (c : Cursor) : PassesInside c c :=
  fun closers _ => .refl closers c

/-- A chunk in brackets that goes on twice goes on from the first place to the last. -/
theorem trans (h : PassesInside c d) (h' : PassesInside d e) : PassesInside c e :=
  fun closers hopen => (h closers hopen).trans (h' closers hopen)

/-- A plain character passes in brackets. -/
theorem peek {x : Char} (h : c.peek = some x) (hx : Scan.isPlain x) :
    PassesInside c (c.advance 1) :=
  fun _ hopen => .peek h hx (.inl hopen)

/-- Spacing passes in brackets. -/
theorem skipTrivia (c : Cursor) : PassesInside c c.skipTrivia := by
  refine Scan.repeated_induction
    (motive := fun chars n => ∀ c : Cursor, c.rest = chars → PassesInside c (c.advance n))
    Scan.triviaStep_le_length (fun _ _ c _ => .refl c) ?_ c.rest c rfl
  rintro chars n hpos ih c rfl
  have hnext := ih (c.advance (Scan.triviaStep c.rest)) (Cursor.advance_rest _ _)
  rw [Cursor.advance_advance] at hnext
  refine trans (fun closers hopen => .of_turn ?_) hnext
  rcases hrest : c.rest with _ | ⟨x, tail⟩
  · rw [hrest] at hpos
    cases hpos
  · rw [hrest] at hpos
    by_cases hblank : Scan.isBlank x
    · have hplain : Scan.isPlain x := Scan.isPlain_of_class (p := Scan.isBlank) rfl hblank
      rw [Scan.balancedTurn_plain hplain (.inl hopen), Scan.triviaStep, if_pos hblank]
    · rw [Scan.triviaStep, if_neg hblank] at hpos ⊢
      rcases hcontinuation : Scan.continuation (x :: tail) with _ | k
      · rw [hcontinuation] at hpos
        cases hpos
      · obtain ⟨_, heq⟩ := Scan.exists_of_continuation hcontinuation
        cases heq
        simp [Scan.balancedTurn, hcontinuation, hopen]

/-- Text on one line without brackets and quotes in which no continuation starts. -/
theorem text (hline : Scan.Inline c.rest n)
    (hplain : ∀ x ∈ c.rest.take n, isBracketOrQuote x = false)
    (hnone : ∀ k < n, Scan.continuation (c.rest.drop k) = none) :
    PassesInside c (c.advance n) := by
  induction n generalizing c with
  | zero => exact refl c
  | succ n ih =>
      rcases hrest : c.rest with _ | ⟨x, tail⟩
      · rw [hrest] at hline
        cases hline.le_length
      · rw [hrest] at hline hplain
        rw [List.take_succ_cons] at hplain
        obtain ⟨hx, htail⟩ := List.forall_mem_cons.mp hplain
        have hnext : (c.advance 1).rest = tail := by
          rw [Cursor.advance_rest, hrest]
          rfl
        have hne : x ≠ '\n' := by
          rintro rfl
          exact hline.newline_notMem (by simp)
        have hpass : PassesInside c (c.advance 1) := fun closers hopen =>
          .char hrest hx hne (hnone 0 (Nat.succ_pos n)) (.inl hopen)
        have hrest' : PassesInside (c.advance 1) ((c.advance 1).advance n) := by
          refine ih (hnext ▸ hline.of_cons) (hnext ▸ htail) fun k hk => ?_
          rw [Cursor.advance_rest, List.drop_drop, Nat.add_comm]
          exact hnone (k + 1) (Nat.succ_lt_succ hk)
        have hpass := hpass.trans hrest'
        rwa [Cursor.advance_advance, Nat.add_comm] at hpass

end PassesInside

/-! ### Containers that recovery skips -/

/-- A container stands between the two places, and what is in it passes. -/
def Boxed (c d : Cursor) : Prop :=
  ∃ (bracket : Bracket) (e : Cursor), c.peek = some bracket.opener ∧
    PassesInside (c.advance 1) e ∧ e.peek = some bracket.closer ∧ d = e.advance 1

namespace Boxed

/-- A container has at least one character. -/
theorem lt (h : Boxed c d) : c < d := by
  obtain ⟨bracket, e, hopen, hinside, hclose, rfl⟩ := h
  obtain ⟨n, rfl, -⟩ := hinside [bracket.closer] (List.cons_ne_nil _ _)
  have hpos := Cursor.length_pos_of_peek hclose
  rw [Cursor.advance_rest, Cursor.advance_rest, List.drop_drop, List.length_drop] at hpos
  rw [Cursor.advance_advance, Cursor.advance_advance]
  exact Cursor.lt_advance (by omega) (by omega)

/-- A container starts with an opening bracket. -/
theorem peek (h : Boxed c d) : c.peek = some '[' ∨ c.peek = some '{' := by
  obtain ⟨bracket, -, hopen, -⟩ := h
  rw [hopen]
  exact (Scan.opener_cases bracket).imp (congrArg some) (congrArg some)

/-- At a container some text is left. -/
theorem exists_peek (h : Boxed c d) : ∃ x, c.peek = some x := by
  obtain ⟨bracket, -, hopen, -⟩ := h
  exact ⟨_, hopen⟩

/-- The opening bracket ends within the container. -/
theorem charEnd_le (h : Boxed c d) : c.charEnd ≤ d.offset := by
  obtain ⟨bracket, e, hopen, hinside, hclose, rfl⟩ := h
  obtain ⟨n, rfl, -⟩ := hinside [bracket.closer] (List.cons_ne_nil _ _)
  rw [Cursor.charEnd_eq (Cursor.ne_nil_of_peek hopen)]
  have hpos := Cursor.length_pos_of_peek hclose
  rw [Cursor.advance_rest, List.length_drop] at hpos
  refine Cursor.offset_le_of_le ?_
  rw [Cursor.advance_advance]
  exact Cursor.le_advance (by omega)

/-- What comes of the chunk at a container. -/
theorem exists_balancedChunk (h : Boxed c d) (closers : List Char) :
    ∃ n, d = c.advance n ∧ Scan.balancedChunk closers 0 c.rest =
      n + if closers = [] then 0 else Scan.balancedChunk closers 0 d.rest := by
  obtain ⟨bracket, e, hopen, hinside, hclose, rfl⟩ := h
  obtain ⟨n, rfl, hn⟩ := hinside (bracket.closer :: closers) (List.cons_ne_nil _ _)
  obtain ⟨front, hfront⟩ := List.head?_eq_some_iff.mp hopen
  obtain ⟨back, hback⟩ := List.head?_eq_some_iff.mp hclose
  refine ⟨1 + n + 1, by rw [Cursor.advance_advance, Cursor.advance_advance, Nat.add_assoc], ?_⟩
  have hnext : (c.advance 1).rest = front := by
    rw [Cursor.advance_rest, hfront]
    rfl
  have hend : (((c.advance 1).advance n).advance 1).rest = back := by
    rw [Cursor.advance_rest, hback]
    rfl
  rw [hfront, Scan.balancedChunk_opener, ← hnext, hn, hback, Scan.balancedChunk_closer, hend]
  split
  · omega
  · omega

/-- If no bracket is open around a container, the chunk ends with it. -/
theorem balancedChunk (h : Boxed c d) :
    ∃ n, d = c.advance n ∧ Scan.balancedChunk [] 0 c.rest = n :=
  h.exists_balancedChunk []

/-- A container in brackets passes as a whole. -/
theorem passesInside (h : Boxed c d) : PassesInside c d := by
  intro closers hopen
  obtain ⟨n, hn, hchunk⟩ := h.exists_balancedChunk closers
  exact ⟨n, hn, by rw [hchunk, if_neg hopen]⟩

end Boxed

/-! ### Interpolated text -/

/-- Recovery sees the brackets and quotes of all these nodes as the parser does. -/
def Transparent (nodes : List Node) : Prop :=
  ∀ node ∈ nodes, node.isTransparent

/-- An interpolation or the text before it. -/
theorem Fragment.passes {piece : Fragment} (hpiece : piece.isTransparent)
    (hline : Scan.Inline c.rest n) (hspells : c.Spells piece.source.toList (c.advance n))
    (hnone : ∀ k < n, Scan.continuation (c.rest.drop k) = none) :
    PassesInside c (c.advance n) := by
  obtain ⟨hrest, -⟩ := hspells
  rw [Cursor.advance_rest] at hrest
  have htext : c.rest.take n = piece.source.toList :=
    List.append_cancel_right ((List.take_append_drop n c.rest).trans hrest)
  rw [Fragment.isTransparent, ← htext, Bool.not_eq_true', List.any_eq_false] at hpiece
  exact .text hline (fun x hx => Bool.eq_false_iff.mpr (hpiece x hx)) hnone

/-- Fragments without brackets and quotes pass in brackets. -/
theorem FragmentsAt.passes {inKey : Bool} {fragments : List Fragment}
    (h : FragmentsAt inKey c fragments d) (hpieces : ∀ piece ∈ fragments, piece.isTransparent) :
    PassesInside c d := by
  induction h with
  | nil => exact .refl _
  | interpolation hstart hok _ ih =>
      obtain ⟨hpiece, hpieces⟩ := List.forall_mem_cons.mp hpieces
      have hspells := interpolation_spells hstart hok
      rw [← Fragment.source_interpolation] at hspells
      exact (Fragment.passes hpiece (Scan.inline_interpolation hstart hok).2 hspells
        (Scan.continuation_drop_of_interpolation hstart hok)).trans (ih hpieces)
  | literal _ hn _ ih =>
      obtain ⟨hpiece, hpieces⟩ := List.forall_mem_cons.mp hpieces
      have hline := Scan.inline_fragment hn
      exact (Fragment.passes hpiece hline (.front hline.le_length)
        (Scan.continuation_drop_of_fragment hn)).trans (ih hpieces)

/-- A macro argument whose brackets and quotes are seen alike passes in brackets. -/
theorem InterpolatedAt.passes {inKey : Bool} {argument : Interpolated}
    (h : InterpolatedAt inKey c argument d) (hnode : (Node.interpolated argument).isTransparent) :
    PassesInside c d := by
  cases h with
  | quoted hstart hok => exact fun _ _ => .string hstart hok
  | bare _ _ h =>
      refine h.passes fun piece hpiece => ?_
      exact List.all_eq_true.mp hnode piece hpiece

/-! ### Containers -/

/-- Text between two places passes if its nodes are transparent. -/
def Skips (c : Cursor) (nodes : List Node) (d : Cursor) : Prop :=
  Transparent nodes → PassesInside c d

namespace Skips

variable {node : Node} {nodes nodes' : List Node}

/-- Two texts in a row pass if each does. -/
theorem append (h : Skips c nodes d) (h' : Skips d nodes' e) : Skips c (nodes ++ nodes') e := by
  intro hnodes
  obtain ⟨hfirst, hsecond⟩ := List.forall_mem_append.mp hnodes
  exact (h hfirst).trans (h' hsecond)

/-- A text that passes with some nodes passes with more of them. -/
theorem cons (h : Skips c nodes d) : Skips c (node :: nodes) d :=
  fun hnodes => h (List.forall_mem_cons.mp hnodes).2

/-- A text passes together with what passes before it. -/
theorem after (h : Skips d nodes e) (hgap : PassesInside c d) : Skips c nodes e :=
  fun hnodes => hgap.trans (h hnodes)

/-- A text passes together with what passes behind it. -/
theorem before (h : Skips c nodes d) (hgap : PassesInside d e) : Skips c nodes e :=
  fun hnodes => (h hnodes).trans hgap

end Skips

/-- Keys pass if they are transparent. -/
theorem KeyAt.skips {key : NbtKey} (h : KeyAt c key d) : Skips c key.nodes d := by
  intro hnodes
  cases h with
  | interpolated _ h => exact h.passes (hnodes _ (by simp [NbtKey.nodes]))
  | quoted _ hstart hok => exact fun _ _ => .string hstart hok
  | bare _ _ hword => exact fun _ _ => .token (Scan.taken_word hword)

/-- The elements of a container up to the bracket that closes it. -/
theorem ElementsAt.skips {α : Type} {element : Cursor → α → Cursor → Prop} {closer : Char}
    {values : List α} (nodes : α → List Node)
    (helement : ∀ {c value d}, element c value d → Skips c (nodes value) d)
    (h : ElementsAt element closer c values d) :
    ∃ e, Skips c (values.flatMap nodes) e ∧ e.peek = some closer ∧ d = e.advance 1 := by
  induction h with
  | @last c d value hvalue hpeek =>
      refine ⟨d.skipTrivia, ?_, hpeek, rfl⟩
      rw [List.flatMap_singleton]
      exact (helement hvalue).before (.skipTrivia d)
  | @next c d _ _ _ hvalue hpeek _ ih =>
      obtain ⟨e, hskips, hclose, hend⟩ := ih
      refine ⟨e, ?_, hclose, hend⟩
      rw [List.flatMap_cons]
      have hcomma := (PassesInside.skipTrivia d).trans (.peek hpeek rfl)
      exact ((helement hvalue).before (hcomma.trans (.skipTrivia _))).append hskips

/-- Pairs pass if their values do. -/
theorem PairAt.skips {value : Cursor → NbtValue → Cursor → Prop} {pair : NbtPair}
    (hvalue : ∀ {c inner d}, value c inner d → Skips c inner.nodes d) (h : PairAt value c pair d) :
    Skips c pair.nodes d := by
  obtain ⟨hkey, hoperator, hinner⟩ := h
  obtain ⟨x, hpeek, hx⟩ := Option.bind_eq_some_iff.mp hoperator
  have hjoin := (PassesInside.skipTrivia _).trans
    (.peek hpeek (Scan.isPlain_of_isOperator (by rw [Scan.isOperator, hx]; rfl)))
  exact .cons ((hkey.skips.before (hjoin.trans (.skipTrivia _))).append (hvalue hinner))

/-- A bracket and what stands between it and the bracket that closes it. -/
theorem Skips.boxed (bracket : Bracket) (nodes : List Node) (hopen : c.peek = some bracket.opener)
    (h : ∃ e, Skips (c.advance 1).skipTrivia nodes e ∧ e.peek = some bracket.closer ∧
      d = e.advance 1) (hnodes : Transparent nodes) : Boxed c d := by
  obtain ⟨e, hskips, hclose, hend⟩ := h
  exact ⟨bracket, e, hopen, (PassesInside.skipTrivia _).trans (hskips hnodes), hclose, hend⟩

/-- A list of transparent nodes stands between its brackets, if its values pass. -/
theorem ListOfAt.boxed {value : Cursor → NbtValue → Cursor → Prop} {list : NbtList}
    (hvalue : ∀ {c inner d}, value c inner d → Skips c inner.nodes d) (h : ListOfAt value c list d)
    (hnodes : Transparent list.nodes) : Boxed c d := by
  cases h with
  | empty hopen hclose =>
      exact Skips.boxed .square [] hopen ⟨_, fun _ => .refl _, hclose, rfl⟩ (List.forall_mem_nil _)
  | pairs hopen _ h =>
      have hitems := (List.forall_mem_cons.mp hnodes).2
      rw [NbtItems.nodes, NbtPair.allNodes_eq_flatMap] at hitems
      exact Skips.boxed .square _ hopen (h.skips NbtPair.nodes fun h => h.skips hvalue) hitems
  | values hopen _ h =>
      have hitems := (List.forall_mem_cons.mp hnodes).2
      rw [NbtItems.nodes, NbtValue.allNodes_eq_flatMap] at hitems
      exact Skips.boxed .square _ hopen (h.skips NbtValue.nodes hvalue) hitems

/-- A compound of transparent nodes stands between its brackets, if its values pass. -/
theorem CompoundOfAt.boxed {value : Cursor → NbtValue → Cursor → Prop} {compound : NbtCompound}
    (hvalue : ∀ {c inner d}, value c inner d → Skips c inner.nodes d)
    (h : CompoundOfAt value c compound d) (hnodes : Transparent compound.nodes) : Boxed c d := by
  obtain ⟨hopen, h⟩ := h
  have hpairs := (List.forall_mem_cons.mp hnodes).2
  rw [NbtPair.allNodes_eq_flatMap] at hpairs
  exact Skips.boxed .curly _ hopen (h.skips NbtPair.nodes fun h => h.skips hvalue) hpairs

/-- Values pass if lists and compounds stand between their brackets. -/
theorem ValueOfAt.skips {list : Cursor → NbtList → Cursor → Prop}
    {compound : Cursor → NbtCompound → Cursor → Prop} {value : NbtValue}
    (hlist : ∀ {c inner d}, list c inner d → Transparent inner.nodes → Boxed c d)
    (hcompound : ∀ {c inner d}, compound c inner d → Transparent inner.nodes → Boxed c d)
    (h : ValueOfAt list compound c value d) : Skips c value.nodes d := by
  intro hnodes
  cases h with
  | interpolated _ h => exact h.passes (hnodes _ (by simp [NbtValue.nodes]))
  | quoted _ hstart hok => exact fun _ _ => .string hstart hok
  | list h => exact (hlist h (List.forall_mem_cons.mp hnodes).2).passesInside
  | compound h => exact (hcompound h (List.forall_mem_cons.mp hnodes).2).passesInside
  | error => cases hnodes _ (List.mem_singleton_self _)
  | resource hspace hpath => exact fun _ _ => .solid (Scan.taken_location hspace hpath)
  | number hnumber =>
      exact fun _ _ => .token (Scan.taken_suffixedNumber (Scan.wholeNumber_eq_some hnumber))
  | boolean hword => exact fun _ _ => .token (Scan.taken_word hword)
  | word hword => exact fun _ _ => .token (Scan.taken_word hword)

/-- By induction on the levels that are left. -/
theorem ValueAt.skips {value : NbtValue} (h : ValueAt room c value d) :
    Skips c value.nodes d := by
  induction room generalizing c value d with
  | zero => exact ValueOfAt.skips (fun h => h.elim) (fun h => h.elim) h
  | succ room ih => exact ValueOfAt.skips (fun h => h.boxed ih) (fun h => h.boxed ih) h

/-- A list of transparent nodes stands between its brackets. -/
theorem ListAt.boxed {list : NbtList} (h : ListAt room c list d)
    (hnodes : Transparent list.nodes) : Boxed c d := by
  cases room with
  | zero => exact h.elim
  | succ room => exact ListOfAt.boxed ValueAt.skips h hnodes

/-- A compound of transparent nodes stands between its brackets. -/
theorem CompoundAt.boxed {compound : NbtCompound} (h : CompoundAt room c compound d)
    (hnodes : Transparent compound.nodes) : Boxed c d := by
  cases room with
  | zero => exact h.elim
  | succ room => exact CompoundOfAt.boxed ValueAt.skips h hnodes

/-! ### Names of path segments -/

/-- A path suffix starts with a character that may be in a fragment. -/
theorem Scan.fragment_ne_none_of_startsPathSuffix {inKey : Bool} {chars : List Char}
    (h : Parser.startsPathSuffix chars) : Scan.fragment inKey chars ≠ none := by
  have hstep : Scan.fragmentStep inKey chars = 1 := by
    unfold Parser.startsPathSuffix at h
    split at h
    case h_4 => cases h
    all_goals simp [fragmentStep, endsFragment, endsKeyFragment, startsInterpolation, continuation]
  have hpos : 0 < Scan.fragmentStep inKey chars := by rw [hstep]; exact Nat.one_pos
  have hcount := Scan.repeated_of_step_pos hpos (fragmentStep_le_length inKey chars)
  rw [Scan.fragment, hcount, hstep, Nat.add_comm]
  exact Option.some_ne_none _

/-- Interpolated text outside quotes takes a point or an opening bracket with it. -/
theorem FragmentsAt.startsPathSuffix {inKey : Bool} {fragments : List Fragment}
    (h : FragmentsAt inKey c fragments d) : Parser.startsPathSuffix d.rest = false := by
  induction h with
  | nil _ hnone =>
      rw [Bool.eq_false_iff]
      exact fun hsuffix => Scan.fragment_ne_none_of_startsPathSuffix hsuffix hnone
  | interpolation _ _ _ ih => exact ih
  | literal _ _ _ ih => exact ih

/-- The name of a segment with something behind it passes, whatever is wanted. -/
theorem KeyAt.passes_of_startsPathSuffix {key : NbtKey} (h : KeyAt c key d)
    (hsuffix : Parser.startsPathSuffix d.rest) : Passes closers c d := by
  cases h with
  | interpolated _ h =>
      cases h with
      | quoted hstart hok => exact .string hstart hok
      | bare _ _ h =>
          rw [h.startsPathSuffix] at hsuffix
          cases hsuffix
  | quoted _ hstart hok => exact .string hstart hok
  | bare _ _ hword => exact .token (Scan.taken_word hword)

end Mcfunction
