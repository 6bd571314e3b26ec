import Mcfunction.Proofs.Lines.Scan.Token
import Mcfunction.Proofs.Progress.Loop
import Mcfunction.Proofs.Token.Walk

/-!
# Scanning Loops Make Progress

The loops that only look ahead: the one that skips a malformed chunk with its brackets, strings
and continuations, runs of one class of characters, repetitions of one step, and the one that
cuts a text into tokens.

## Main results

* `Scan.balancedChunk_loop`, `Scan.run_loop`, `Scan.repeated_loop`: these loops make progress.
* `Token.scan_bounds`: a token takes at least one character, and no more than there are.
* `Token.ofCursor_eq_of_le`: more fuel gives no other tokens.
-/

namespace Mcfunction

namespace Scan

variable {closers chars : List Char} {p : Char → Bool} {m n : Nat}

/-! ### Malformed chunks -/

/-- One turn of the loop that skips a malformed chunk. -/
def balancedTurn (closers : List Char) (chars : List Char) : Turn (List Char) :=
  match chars with
  | [] => .stop 0
  | c :: tail =>
    if c == '\n' then .stop 0
    else
      match continuation (c :: tail) with
      | some count => if closers.isEmpty then .stop 0 else .next count closers
      | none =>
        if isBlank c && closers.isEmpty then .stop 0
        else if c == '"' || c == '\'' then
          match quoted (c :: tail) with
          | .ok quoted => .next quoted.count closers
          | .error _ => .stop (max (trimmedStatement (c :: tail)) 1)
        else if c == '[' then .next 1 (']' :: closers)
        else if c == '{' then .next 1 ('}' :: closers)
        else if c == ']' || c == '}' then
          match closers with
          | [] => .stop 0
          | closer :: outer =>
            if closer != c then .stop 0 else if outer.isEmpty then .stop 1 else .next 1 outer
        else .next 1 closers

/-- Characters that are pending are taken first. -/
theorem balancedChunk_pending (h : n ≤ chars.length) :
    balancedChunk closers n chars = n + balancedChunk closers 0 (chars.drop n) := by
  induction n generalizing chars with
  | zero => simp
  | succ n ih =>
      rcases chars with _ | ⟨c, chars⟩
      · simp at h
      · rw [balancedChunk, ih (by simpa using h), List.drop_succ_cons]
        omega

theorem quoted_count_le {c : Char} {tail : List Char} {q : Quoted}
    (hquote : (c == '"' || c == '\'') = true) (hok : quoted (c :: tail) = .ok q) :
    q.before ≤ tail.length := by
  have hstart : startsQuoted (c :: tail) := by
    rw [Bool.or_eq_true, beq_iff_eq, beq_iff_eq] at hquote
    rcases hquote with rfl | rfl <;> rfl
  have hle := (inline_quoted hstart hok).le_length
  rw [Quoted.count, List.length_cons] at hle
  omega

theorem balancedChunk_eq_turn (closers chars : List Char) :
    balancedChunk closers 0 chars =
      (balancedTurn closers chars).total (fun closers => balancedChunk closers 0) chars := by
  fun_cases balancedTurn closers chars with
  | case1 => rfl
  | case2 closers c tail hc => simp [Turn.total, balancedChunk, hc]
  | case3 closers c tail hc count hcount hempty =>
      simp [Turn.total, balancedChunk, hc, hcount, hempty]
  | case4 closers c tail hc count hcount hempty =>
      have hle := continuation_le_length hcount
      have hpos := two_le_continuation hcount
      obtain ⟨count, rfl⟩ := Nat.exists_eq_add_of_le' (Nat.one_le_of_lt hpos)
      have hpending : count ≤ tail.length := Nat.le_of_succ_le_succ hle
      simp [Turn.total, balancedChunk, hc, hcount, hempty, balancedChunk_pending hpending]
      omega
  | case5 closers c tail hc hcont hblank => simp [Turn.total, balancedChunk, hc, hcont, hblank]
  | case6 closers c tail hc hcont hblank hquote q hq =>
      simp [Turn.total, balancedChunk, hc, hcont, hblank, hquote, hq, Quoted.count,
        balancedChunk_pending (quoted_count_le hquote hq)]
      omega
  | case7 closers c tail hc hcont hblank hquote error herror =>
      simp [Turn.total, balancedChunk, hc, hcont, hblank, hquote, herror]
  | case8 closers c tail hc hcont hblank hquote hsquare =>
      simp [Turn.total, balancedChunk, hc, hcont, hblank, hquote, hsquare, Nat.add_comm]
  | case9 closers c tail hc hcont hblank hquote hsquare hcurly =>
      simp [Turn.total, balancedChunk, hc, hcont, hblank, hquote, hsquare, hcurly, Nat.add_comm]
  | case10 c tail hc hcont hquote hsquare hcurly hclose =>
      simp [Turn.total, balancedChunk, hc, hcont, hquote, hsquare, hcurly, hclose]
  | case11 c tail hc hcont hquote hsquare hcurly hclose closer outer hcloser =>
      simp [Turn.total, balancedChunk, hc, hcont, hquote, hsquare, hcurly, hclose, hcloser]
  | case12 c tail hc hcont hquote hsquare hcurly hclose closer outer hcloser hempty =>
      simp [Turn.total, balancedChunk, hc, hcont, hquote, hsquare, hcurly, hclose, hcloser, hempty]
  | case13 c tail hc hcont hquote hsquare hcurly hclose closer outer hcloser hempty =>
      simp [Turn.total, balancedChunk, hc, hcont, hquote, hsquare, hcurly, hclose, hcloser, hempty,
        Nat.add_comm]
  | case14 closers c tail hc hcont hblank hquote hsquare hcurly hclose =>
      simp [Turn.total, balancedChunk, hc, hcont, hblank, hquote, hsquare, hcurly, hclose,
        Nat.add_comm]

theorem balancedTurn_advances (closers chars : List Char) :
    (balancedTurn closers chars).Advances chars := by
  fun_cases balancedTurn closers chars with
  | case4 closers c tail hc count hcount hempty =>
      exact ⟨Nat.lt_of_lt_of_le Nat.two_pos (two_le_continuation hcount),
        continuation_le_length hcount⟩
  | case6 closers c tail hc hcont hblank hquote q hq =>
      exact ⟨Nat.succ_pos _, Nat.succ_le_succ (quoted_count_le hquote hq)⟩
  | case7 closers c tail =>
      have hle := (trimmedStatement_le_statement (c :: tail)).trans (statement_le_length _)
      exact max_le hle (Nat.succ_pos _)
  | _ => simp [Turn.Advances]

/-- The loop that skips a malformed chunk, with the closing brackets still wanted as its state. -/
theorem balancedChunk_loop :
    Loop balancedTurn fun closers => balancedChunk closers 0 :=
  .of_advances balancedChunk_eq_turn balancedTurn_advances

/-! ### Runs and repetitions -/

/-- One turn of a run: one character of the class. -/
def runTurn (p : Char → Bool) (_ : Unit) (chars : List Char) : Turn Unit :=
  match chars with
  | [] => .stop 0
  | c :: _ => if p c then .next 1 () else .stop 0

/-- A run of a class of characters. -/
theorem run_loop (p : Char → Bool) : Loop (runTurn p) fun _ => run p := by
  refine .of_advances ?_ ?_
  · intro _ chars
    rcases chars with _ | ⟨c, tail⟩
    · rfl
    · rw [run_cons, runTurn]
      by_cases hc : p c
      · rw [if_pos hc, if_pos hc, Nat.add_comm]
        rfl
      · rw [if_neg hc, if_neg hc]
        rfl
  · intro _ chars
    rcases chars with _ | ⟨c, tail⟩
    · exact Nat.zero_le _
    · rw [runTurn]
      by_cases hc : p c
      · rw [if_pos hc]
        exact ⟨Nat.one_pos, Nat.succ_pos _⟩
      · rw [if_neg hc]
        exact Nat.zero_le _

/-- One turn of a repetition: one step, unless it takes nothing. -/
def repeatedTurn (step : List Char → Nat) (_ : Unit) (chars : List Char) : Turn Unit :=
  if step chars = 0 then .stop 0 else .next (step chars) ()

/-- The repetition of a step. -/
theorem repeated_loop {step : List Char → Nat} (hle : ∀ chars, step chars ≤ chars.length) :
    Loop (repeatedTurn step) fun _ => repeated step 0 := by
  refine .of_advances ?_ ?_
  · intro _ chars
    by_cases hstep : step chars = 0
    · rw [repeatedTurn, if_pos hstep, repeated_of_step_zero hstep]
      rfl
    · rw [repeatedTurn, if_neg hstep]
      exact repeated_of_step_pos (Nat.pos_of_ne_zero hstep) (hle chars)
  · intro _ chars
    by_cases hstep : step chars = 0
    · rw [repeatedTurn, if_pos hstep]
      exact Nat.zero_le _
    · rw [repeatedTurn, if_neg hstep]
      exact ⟨Nat.pos_of_ne_zero hstep, hle chars⟩

/-- A chunk takes at least one character if there is one. -/
theorem chunk_pos (h : chars ≠ []) : 0 < chunk chars := by
  have := List.length_pos_iff.mpr h
  unfold chunk
  omega

end Scan

/-! ### Tokens -/

namespace Token

variable {lineStart : Bool} {x : Char} {tail : List Char} {kind : TokenKind} {n : Nat}

theorem commentText_bounds (hx : x = '#') : 0 < Scan.commentText (x :: tail) ∧
    Scan.commentText (x :: tail) ≤ tail.length + 1 := by
  subst hx
  have hpos : 0 < Scan.statement ('#' :: tail) := Scan.statement_pos (by decide)
  have hle := (Scan.commentText_le_statement ('#' :: tail)).trans (Scan.statement_le_length _)
  refine ⟨?_, hle⟩
  unfold Scan.commentText
  simp only
  split
  · rename_i hreturn
    -- the first character is no carriage return, so another one follows it
    by_contra hone
    obtain hone : Scan.statement ('#' :: tail) = 1 := by omega
    rw [hone] at hreturn
    cases hreturn
  · exact hpos

/-- A token takes at least one character, and no more than there are. -/
theorem scan_bounds (h : scan lineStart x tail = .ok (kind, n)) :
    0 < n ∧ n ≤ tail.length + 1 := by
  have hinline : ∀ {m}, 0 < m → Scan.Inline (x :: tail) m → 0 < m ∧ m ≤ tail.length + 1 :=
    fun hpos hline => ⟨hpos, hline.le_length⟩
  revert h
  fun_cases scan lineStart x tail with
  | case1 | case5 =>
      rintro ⟨⟩
      exact ⟨Nat.one_pos, Nat.succ_pos _⟩
  | case2 chars _ hblank =>
      rintro ⟨⟩
      refine ⟨?_, Scan.run_le_length _ _⟩
      rw [Scan.run_cons, if_pos hblank]
      exact Nat.succ_pos _
  | case3 chars _ _ hcomment =>
      rintro ⟨⟩
      rw [Bool.and_eq_true, beq_iff_eq] at hcomment
      exact commentText_bounds hcomment.1
  | case4 chars _ _ _ hstart =>
      cases hscan : Scan.interpolation chars with
      | error => rintro ⟨⟩
      | ok m =>
          rintro ⟨⟩
          obtain ⟨hpos, hline⟩ := Scan.inline_interpolation hstart hscan
          exact hinline hpos hline
  | case6 chars _ _ _ _ _ hstart =>
      cases hscan : Scan.quoted chars with
      | error => rintro ⟨⟩
      | ok q =>
          rintro ⟨⟩
          exact hinline (Nat.succ_pos _) (Scan.inline_quoted hstart hscan)
  | case7 chars _ _ _ _ _ _ hselector =>
      rintro ⟨⟩
      rcases tail with _ | ⟨y, tail⟩
      · simp at hselector
      · exact ⟨Nat.two_pos, Nat.succ_le_succ (Nat.succ_pos _)⟩
  | case8 chars =>
      rintro ⟨⟩
      cases hcoordinate : Scan.coordinate chars with
      | none => exact ⟨Nat.one_pos, Nat.succ_pos _⟩
      | some m =>
          exact hinline (Scan.coordinate_pos hcoordinate) (Scan.inline_coordinate hcoordinate)
  | case9 chars _ _ _ _ _ _ _ _ count hcount =>
      rintro ⟨⟩
      exact ⟨Nat.lt_of_lt_of_le Nat.two_pos (Scan.two_le_continuation hcount),
        Scan.continuation_le_length hcount⟩
  | case10 chars _ _ _ _ _ _ _ _ count hplayer =>
      rintro ⟨⟩
      obtain ⟨name, k, heq, rfl, hline⟩ := Scan.fakePlayer_eq_some hplayer
      obtain ⟨rfl, rfl⟩ := List.cons.inj heq
      exact ⟨Nat.succ_pos _, Nat.succ_le_succ hline.le_length⟩
  | case11 chars =>
      intro h
      obtain ⟨kind', k, hlongest, htaken⟩ := longest_taken x tail
      rw [hlongest] at h
      cases h
      exact ⟨Nat.succ_pos _, Nat.succ_le_succ (htaken.inline (by decide)).le_length⟩

/-- As long as there is fuel for each character, it does not matter how much there is. -/
theorem ofCursor_eq {fuel fuel' : Nat} {c : Cursor} (hfuel : c.rest.length ≤ fuel)
    (hfuel' : c.rest.length ≤ fuel') :
    ofCursor lineStart fuel c = ofCursor lineStart fuel' c := by
  induction fuel generalizing lineStart fuel' c with
  | zero =>
      have hrest := List.eq_nil_of_length_eq_zero (Nat.le_zero.mp hfuel)
      cases fuel' with
      | zero => rfl
      | succ fuel' => rw [ofCursor, ofCursor, hrest]
  | succ fuel ih =>
      rcases hrest : c.rest with _ | ⟨x, tail⟩
      · cases fuel' with
        | zero => rw [ofCursor, ofCursor, hrest]
        | succ fuel' => rw [ofCursor, ofCursor, hrest]
      · rw [hrest, List.length_cons] at hfuel hfuel'
        obtain ⟨fuel', rfl⟩ := Nat.exists_eq_succ_of_ne_zero (Nat.ne_zero_of_lt hfuel')
        rw [ofCursor, ofCursor, hrest]
        dsimp only
        rcases hscan : scan lineStart x tail with error | ⟨kind, n⟩
        · rfl
        · obtain ⟨hpos, -⟩ := scan_bounds hscan
          have hnext : ofCursor (lineStartAfter lineStart kind) fuel (c.advance n) =
              ofCursor (lineStartAfter lineStart kind) fuel' (c.advance n) := by
            have hlength : (c.advance n).rest.length ≤ tail.length := by
              rw [Cursor.advance_rest, hrest, List.length_drop, List.length_cons]
              omega
            exact ih (by omega) (by omega)
          dsimp only
          rw [hnext]

end Token

end Mcfunction
