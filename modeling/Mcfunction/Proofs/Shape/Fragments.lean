import Mathlib.Data.List.Chain
import Mcfunction.Proofs.Parser.Leaf

/-!
# The Pieces of Interpolated Text

Interpolated text is announced by one recognizer and cut into pieces by others. What is announced
has an interpolation, and each piece of text is as long as it can be, so that two of them never
follow each other.

Outside quotes the announcement looks past characters that all belong to one fragment. Inside
quotes the announcement is the flag that the recognizer of the whole string sets on its way to the
closing quote; it stays unset if the first piece of text reaches up to there.

## Main results

* `InterpolatedAt.interpolations_ne_nil`: interpolated text has an interpolation.
* `InterpolatedAt.fragments_isChain`: of two pieces next to each other, one is an interpolation.
-/

namespace Mcfunction

/-- Whether a piece is text. -/
def Fragment.isText : Fragment → Bool
  | .interpolation _ => false
  | .literal _ | .quoted _ => true

/-- Of two pieces next to each other, at most one is text. -/
def Fragment.Alternate (fragments : List Fragment) : Prop :=
  fragments.IsChain fun piece next => piece.isText = false ∨ next.isText = false

theorem Fragment.Alternate.interpolation {piece : Interpolation} {fragments : List Fragment}
    (h : Alternate fragments) : Alternate (.interpolation piece :: fragments) :=
  List.isChain_cons.mpr ⟨fun _ _ => .inl rfl, h⟩

/-- Text may stand before pieces that do not start with text. -/
theorem Fragment.Alternate.text {fragment : Fragment} {fragments : List Fragment}
    (hfirst : ∀ next ∈ fragments.head?, next.isText = false) (h : Alternate fragments) :
    Alternate (fragment :: fragments) :=
  List.isChain_cons.mpr ⟨fun next hnext => .inr (hfirst next hnext), h⟩

variable {inKey : Bool} {c d : Cursor} {n : Nat} {fragments : List Fragment}

/-! ### Outside quotes -/

namespace Scan

variable {chars : List Char}

theorem fragmentStep_le_length (inKey : Bool) (chars : List Char) :
    fragmentStep inKey chars ≤ chars.length :=
  (inline_fragmentStep inKey chars).le_length

theorem fragmentStep_of_startsInterpolation (h : startsInterpolation chars) :
    fragmentStep inKey chars = 0 := by
  unfold fragmentStep
  split
  · rfl
  · simp [h]

/-- A fragment goes as far as its steps do. -/
theorem fragment_eq_some (h : fragment inKey chars = some n) :
    repeated (fragmentStep inKey) 0 chars = n := by
  unfold fragment at h
  split at h
  · cases h
  · rename_i hcount
    cases h
    exact hcount

/-- Where a fragment ends no other one starts. -/
theorem fragment_drop_fragment (h : fragment inKey chars = some n) :
    fragment inKey (chars.drop n) = none := by
  have hzero := step_drop_repeated (fragmentStep_le_length inKey) chars
  rw [fragment_eq_some h] at hzero
  rw [fragment, repeated_of_step_zero hzero]

/-- A fragment takes all characters that may stand before the first interpolation. -/
theorem repeated_fragmentStep_lead
    (h : startsInterpolation (chars.drop (run (isLeadChar inKey) chars))) :
    repeated (fragmentStep inKey) 0 chars = run (isLeadChar inKey) chars := by
  induction chars with
  | nil => rfl
  | cons x chars ih =>
      by_cases hx : isLeadChar inKey x
      · have hstep := Parser.fragmentStep_of_isLeadChar chars hx
        rw [run_cons, if_pos hx] at h ⊢
        rw [repeated_of_step_pos (by omega) (by simp [hstep]), hstep, List.drop_succ_cons,
          List.drop_zero, ih (by simpa using h)]
        omega
      · rw [run_cons, if_neg hx] at h ⊢
        exact repeated_of_step_zero (fragmentStep_of_startsInterpolation h)

end Scan

/-- Where an interpolation starts, it is the first piece. -/
theorem FragmentsAt.head_of_startsInterpolation (h : FragmentsAt inKey c fragments d)
    (hstart : Scan.startsInterpolation c.rest) :
    ∃ piece others, fragments = .interpolation piece :: others := by
  cases h with
  | interpolation => exact ⟨_, _, rfl⟩
  | nil hnone | literal hnone => simp [hnone] at hstart

/-- Where no fragment starts, the first piece is no text. -/
theorem FragmentsAt.head_isText (h : FragmentsAt inKey c fragments d)
    (hnone : Scan.fragment inKey c.rest = none) :
    ∀ next ∈ fragments.head?, next.isText = false := by
  cases h with
  | nil => simp
  | interpolation => simp [Fragment.isText]
  | literal _ hn => simp [hnone] at hn

/-- The fragments of a bare macro argument alternate. -/
theorem FragmentsAt.alternate (h : FragmentsAt inKey c fragments d) :
    Fragment.Alternate fragments := by
  induction h with
  | nil => exact .nil
  | interpolation _ _ _ ih => exact ih.interpolation
  | literal _ hn h ih =>
      refine ih.text (h.head_isText ?_)
      rw [Cursor.advance_rest]
      exact Scan.fragment_drop_fragment hn

/-- A bare macro argument has an interpolation. -/
theorem FragmentsAt.exists_interpolation (hquoted : Scan.startsQuoted c.rest = false)
    (hstart : Scan.startsInterpolated inKey c.rest) (h : FragmentsAt inKey c fragments d) :
    ∃ piece, .interpolation piece ∈ fragments := by
  rw [Scan.startsInterpolated, hquoted, if_neg Bool.false_ne_true] at hstart
  have hlead := Scan.repeated_fragmentStep_lead hstart
  cases h with
  | nil hnone hfragment =>
      -- with no fragment there are no lead characters, so an interpolation starts here
      have hzero : Scan.run (Scan.isLeadChar inKey) c.rest = 0 := by
        rw [← hlead]
        unfold Scan.fragment at hfragment
        split at hfragment <;> simp_all
      rw [hzero, List.drop_zero, hnone] at hstart
      cases hstart
  | interpolation => exact ⟨_, List.mem_cons_self⟩
  | literal _ hn h =>
      rw [← hlead, Scan.fragment_eq_some hn, ← Cursor.advance_rest] at hstart
      obtain ⟨piece, others, rfl⟩ := h.head_of_startsInterpolation hstart
      exact ⟨piece, List.mem_cons_of_mem _ List.mem_cons_self⟩

/-! ### Inside quotes -/

namespace Scan

variable {chars : List Char}

/-- Inside quotes the text before the closing quote holds the opener of an interpolation
whole. -/
theorem InQuotes.quotedTextStep_take {closes : Char → Bool} {left : Nat}
    (h : InQuotes closes chars left) (hstart : startsInterpolation chars) :
    Parser.quotedTextStep (chars.take left) = 0 := by
  obtain ⟨n, hn, hle, -⟩ := h.interpolation hstart
  obtain ⟨k, _, rfl, -⟩ := interpolation_eq_ok hstart hn
  obtain ⟨body, rfl⟩ := startsInterpolation_iff.mp hstart
  obtain ⟨left, rfl⟩ : ∃ m, left = m + 2 := ⟨left - 2, by omega⟩
  rfl

/-- A string whose first piece of text reaches up to the closing quote is not flagged on the
way. -/
theorem quotedFrom_text {closes : Char → Bool} {before left : Nat} {flag : Bool} {q : Quoted}
    (hq : quotedFrom closes before flag 0 chars = .ok q) (hleft : q.before = before + left)
    (htext : repeated Parser.quotedTextStep 0 (chars.take left) = left) :
    q.interpolated = flag := by
  induction left using Nat.strong_induction_on generalizing before chars with
  | _ left ih =>
      have hquotes : InQuotes closes chars left := ⟨before, flag, q, hq, hleft⟩
      rcases chars with _ | ⟨x, rest⟩
      · cases hq
      -- A step of the text takes what the recognizer of the whole string takes.
      have hnext : ∀ {m}, 0 < m → m ≤ left →
          Parser.quotedTextStep ((x :: rest).take left) = m →
          quotedFrom closes (before + m) flag 0 ((x :: rest).drop m) = .ok q →
          q.interpolated = flag := by
        intro m hpos hle hstep hq
        have hlen := hquotes.inline.le_length
        rw [repeated_of_step_pos (by omega) (by rw [hstep, List.length_take]; omega), hstep,
          List.drop_take] at htext
        exact ih (left - m) (by omega) hq (by omega) (by omega)
      by_cases hslash : x = '\\'
      · subst hslash
        obtain ⟨htwo, -⟩ := hquotes.escape
        obtain ⟨m, rfl⟩ : ∃ m, left = m + 1 := ⟨left - 1, by omega⟩
        refine hnext Nat.two_pos htwo rfl ?_
        rw [quotedFrom.eq_def] at hq
        simp only [Char.reduceBEq, Bool.false_eq_true, if_false, if_true] at hq
        split at hq
        · cases hq
        · cases hq
        · cases hq
        · rename_i hnil _ _
          rwa [quotedFrom_pending (List.length_pos_iff.mpr hnil)] at hq
      by_cases hstart : startsInterpolation (x :: rest)
      · obtain ⟨n, hn, hle, -⟩ := hquotes.interpolation hstart
        obtain ⟨hpos, -⟩ := inline_interpolation hstart hn
        rw [repeated_of_step_zero (hquotes.quotedTextStep_take hstart)] at htext
        omega
      rw [quotedFrom.eq_def] at hq
      simp only [hstart, Bool.false_eq_true, if_false, beq_iff_eq, hslash] at hq
      split at hq
      · cases hq
      · split at hq
        · cases hq
          rfl
        · rw [Bool.not_eq_true] at hstart
          obtain ⟨k, _, _, hk, -⟩ := quotedFrom_eq_ok (.zero _) hq
          obtain ⟨m, rfl⟩ : ∃ m, left = m + 1 := ⟨left - 1, by omega⟩
          refine hnext Nat.one_pos (by omega) ?_ hq
          have hfront : startsInterpolation ((x :: rest).take (m + 1)) = false :=
            Bool.eq_false_iff.mpr fun h => by simp [startsInterpolation_of_take h] at hstart
          rw [List.take_succ_cons] at hfront ⊢
          simp [Parser.quotedTextStep, hslash, hfront]

end Scan

/-- Where an interpolation starts, it is the first piece. -/
theorem QuotedFragmentsAt.head_of_startsInterpolation {closes : Char → Bool} {left : Nat}
    (hquotes : Scan.InQuotes closes c.rest left) (hpos : 0 < left)
    (hstart : Scan.startsInterpolation c.rest) (h : QuotedFragmentsAt left c fragments d) :
    ∃ piece others, fragments = .interpolation piece :: others := by
  cases h with
  | nil => exact absurd hpos (lt_irrefl 0)
  | interpolation => exact ⟨_, _, rfl⟩
  | quoted hn _ htext =>
      rw [Scan.repeated_of_step_zero (hquotes.quotedTextStep_take hstart)] at htext
      omega

/-- After a piece of text comes an interpolation or the closing quote. -/
theorem QuotedFragmentsAt.head_isText {closes : Char → Bool} {left : Nat}
    (hquotes : Scan.InQuotes closes c.rest left)
    (hstart : 0 < left → Scan.startsInterpolation c.rest)
    (h : QuotedFragmentsAt left c fragments d) :
    ∀ next ∈ fragments.head?, next.isText = false := by
  rcases Nat.eq_zero_or_pos left with rfl | hpos
  · cases h with
    | nil => simp
    | interpolation hopen hok hle =>
        have := (Scan.inline_interpolation hopen hok).1
        omega
    | quoted hn hle => omega
  · obtain ⟨piece, others, rfl⟩ := h.head_of_startsInterpolation hquotes hpos (hstart hpos)
    simp [Fragment.isText]

/-- The fragments within quotes alternate. -/
theorem QuotedFragmentsAt.alternate {closes : Char → Bool} {left : Nat}
    (hquotes : Scan.InQuotes closes c.rest left) (h : QuotedFragmentsAt left c fragments d) :
    Fragment.Alternate fragments := by
  induction h with
  | nil => exact .nil
  | interpolation hstart hok _ _ ih =>
      obtain ⟨n, hn, -, hin⟩ := hquotes.interpolation hstart
      obtain rfl : _ = n := Except.ok.inj (hok.symm.trans hn)
      exact (ih (by rwa [Cursor.advance_rest])).interpolation
  | quoted _ _ htext h ih =>
      obtain ⟨-, hin, hstart⟩ := hquotes.text htext
      rw [← Cursor.advance_rest] at hin hstart
      exact (ih hin).text (h.head_isText hin fun hpos => hstart (by omega))

/-- If the first piece of text does not reach up to the closing quote, an interpolation ends
it. -/
theorem QuotedFragmentsAt.exists_interpolation {closes : Char → Bool} {left : Nat}
    (hquotes : Scan.InQuotes closes c.rest left)
    (htext : Scan.repeated Parser.quotedTextStep 0 (c.rest.take left) ≠ left)
    (h : QuotedFragmentsAt left c fragments d) : ∃ piece, .interpolation piece ∈ fragments := by
  cases h with
  | nil => simp at htext
  | interpolation => exact ⟨_, List.mem_cons_self⟩
  | quoted _ _ hn h =>
      obtain ⟨hle, hin, hstart⟩ := hquotes.text hn
      have hlt := lt_of_le_of_ne hle fun heq => htext (hn.trans heq)
      rw [← Cursor.advance_rest] at hin hstart
      obtain ⟨piece, others, rfl⟩ := h.head_of_startsInterpolation hin (by omega) (hstart hlt)
      exact ⟨piece, List.mem_cons_of_mem _ List.mem_cons_self⟩

/-- The first piece of a flagged string does not reach up to its closing quote. -/
theorem Scan.Quoted.text_ne {chars : List Char} {q : Scan.Quoted}
    (hstart : Scan.startsQuoted chars) (hq : Scan.quoted chars = .ok q) (hflag : q.interpolated) :
    Scan.repeated Parser.quotedTextStep 0 ((chars.drop 1).take (q.before - 1)) ≠
      q.before - 1 := by
  intro htext
  have hfalse : ∀ {quote body}, quote ≠ '\n' → chars = quote :: body → q.interpolated = false := by
    rintro quote body hquote rfl
    obtain ⟨k, _, hbefore, -⟩ := Scan.quoted_eq_ok hquote hq
    exact Scan.quotedFrom_text hq (by omega) htext
  obtain ⟨body, hrest | hrest⟩ := Scan.startsQuoted_iff.mp hstart
  · simp [hfalse (by decide) hrest] at hflag
  · simp [hfalse (by decide) hrest] at hflag

/-! ### Both forms -/

/-- The fragments of a macro argument alternate. -/
theorem InterpolatedAt.fragments_isChain {argument : Interpolated}
    (h : InterpolatedAt inKey c argument d) : Fragment.Alternate argument.fragments := by
  cases h with
  | quoted hstart hq _ h =>
      obtain ⟨closes, -, hin⟩ := Scan.InQuotes.of_quoted hstart hq
      exact h.alternate (by rwa [Cursor.advance_rest])
  | bare _ _ h => exact h.alternate

/-- A macro argument has an interpolation. -/
theorem InterpolatedAt.interpolations_ne_nil {argument : Interpolated}
    (hstart : Scan.startsInterpolated inKey c.rest) (h : InterpolatedAt inKey c argument d) :
    argument.interpolations ≠ [] := by
  have hpiece : ∃ piece, .interpolation piece ∈ argument.fragments := by
    cases h with
    | quoted hquoted hq hflag h =>
        obtain ⟨closes, -, hin⟩ := Scan.InQuotes.of_quoted hquoted hq
        have htext := Scan.Quoted.text_ne hquoted hq hflag
        rw [← Cursor.advance_rest] at hin htext
        exact h.exists_interpolation hin htext
    | bare hquoted _ h => exact h.exists_interpolation hquoted hstart
  obtain ⟨piece, hpiece⟩ := hpiece
  exact List.ne_nil_of_mem (List.mem_filterMap.mpr ⟨_, hpiece, rfl⟩)

end Mcfunction
