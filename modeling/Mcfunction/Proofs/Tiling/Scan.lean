import Mcfunction.Proofs.Gaps.Scan
import Mcfunction.Proofs.Progress.Scan

/-!
# Tokens before a Fault

A flat reading stops at the first string or interpolation that cannot be read. The rules here say
what is wrong with it without running a recognizer: how far the text between its quotes is made of
characters, escapes and interpolations, and what stands there instead of the closing quote.

The tokens before a fault would be the same if the text ended there. A token is over before it meets
a quote or a dollar sign, unless it is a string or an interpolation that closes before the fault, or
a comment; and a comment ends with its line, so a fault after it stands on a later line.

## Main results

* `Scan.unreadable_of_error`: what stands where a token cannot be read.
* `Token.scan_append_cons`: a token before a fault is a token of the text up to the fault.
-/

namespace Mcfunction

namespace Scan

/-! ### Faults -/

/-- An interpolation that is not closed on its line. -/
def OpenInterpolation (chars : List Char) : Prop :=
  ∃ name tail, chars = '$' :: '(' :: (name ++ tail) ∧ (∀ x ∈ name, x ≠ ')' ∧ x ≠ '\n') ∧
    atLineEnd tail

/-- Whether the text is over, or a line break or a carriage return with one follows. -/
def atLineBreak (chars : List Char) : Bool :=
  match chars with
  | [] => true
  | '\n' :: _ => true
  | '\r' :: '\n' :: _ => true
  | _ => false

/-- What follows in a string that `quote` would close, up to a fault of it. -/
inductive OpenString (quote : Char) : LexicalFault → List Char → Prop
  /-- The line ends. -/
  | lineEnd {tail} : atLineEnd tail → OpenString quote .unterminatedString tail
  /-- A backslash escapes nothing. -/
  | badEscape {tail} : atLineBreak tail → OpenString quote .invalidEscape ('\\' :: tail)
  /-- An interpolation is not closed. -/
  | badInterpolation {chars} : OpenInterpolation chars →
      OpenString quote .unterminatedInterpolation chars
  /-- A character that stands for itself, then the fault. -/
  | plain {fault c chars} : c ≠ '\n' → c ≠ '\\' → c ≠ quote →
      startsInterpolation (c :: chars) = false → OpenString quote fault chars →
      OpenString quote fault (c :: chars)
  /-- An escape, then the fault. -/
  | escape {fault c chars} : atLineBreak (c :: chars) = false → OpenString quote fault chars →
      OpenString quote fault ('\\' :: c :: chars)
  /-- An interpolation, then the fault. -/
  | interpolation {fault name chars} : (∀ c ∈ name, c ≠ ')' ∧ c ≠ '\n') →
      OpenString quote fault chars → OpenString quote fault ('$' :: '(' :: (name ++ ')' :: chars))

/-- A string or an interpolation that cannot be read. -/
inductive Unreadable : LexicalFault → List Char → Prop
  /-- A string with a fault in it. -/
  | string {quote fault body} : quote = '"' ∨ quote = '\'' → OpenString quote fault body →
      Unreadable fault (quote :: body)
  /-- An interpolation that is not closed. -/
  | interpolation {chars} : OpenInterpolation chars → Unreadable .unterminatedInterpolation chars

variable {chars tail : List Char} {x c : Char} {n : Nat}

/-- An interpolation without errors has a name and a closing parenthesis. -/
theorem interpolation_closed (hstart : startsInterpolation chars)
    (h : interpolation chars = .ok n) :
    ∃ name tail, chars = '$' :: '(' :: (name ++ ')' :: tail) ∧
      (∀ c ∈ name, c ≠ ')' ∧ c ≠ '\n') ∧ n = name.length + 3 := by
  obtain ⟨body, rfl⟩ := startsInterpolation_iff.mp hstart
  have hsplit := List.take_append_drop (run (fun c => c != ')' && c != '\n') body) body
  have hname := (taken_run (fun c => c != ')' && c != '\n') body).forall_mem
  have hlen := List.length_take_of_le (run_le_length (fun c => c != ')' && c != '\n') body)
  unfold interpolation at h
  simp only [openerCount_dollar, List.drop_succ_cons, List.drop_zero] at h
  split at h
  · rename_i tail hclose
    cases h
    refine ⟨_, tail, ?_, fun c hc => by simpa using hname c hc, ?_⟩
    · rw [← hclose, hsplit]
    · rw [hlen]
      omega
  · cases h

/-- An interpolation with an error has not been closed. -/
theorem interpolation_open {error : Error} (hstart : startsInterpolation chars)
    (h : interpolation chars = .error error) :
    OpenInterpolation chars ∧ error.fault = .unterminatedInterpolation := by
  obtain ⟨body, rfl⟩ := startsInterpolation_iff.mp hstart
  have hsplit := List.take_append_drop (run (fun c => c != ')' && c != '\n') body) body
  have hname := (taken_run (fun c => c != ')' && c != '\n') body).forall_mem
  unfold interpolation at h
  simp only [openerCount_dollar, List.drop_succ_cons, List.drop_zero] at h
  split at h
  · cases h
  · rename_i hopen
    cases h
    refine ⟨⟨_, _, by rw [hsplit], fun c hc => by simpa using hname c hc, ?_⟩, rfl⟩
    rcases hrest : body.drop (run (fun c => c != ')' && c != '\n') body) with _ | ⟨c, rest⟩
    · rfl
    · have hstop := run_stop hrest
      have hc : c ≠ ')' := by
        rintro rfl
        exact hopen rest hrest
      simpa [atLineEnd, hc] using hstop

/-- Where reading a string fails, the string has the fault that is reported. -/
theorem quotedFrom_open {quote : Char} {before pending : Nat} {interpolated : Bool} {error : Error}
    (hpending : pending ≤ chars.length)
    (h : quotedFrom (· == quote) before interpolated pending chars = .error error) :
    OpenString quote error.fault (chars.drop pending) := by
  fun_induction quotedFrom (· == quote) before interpolated pending chars with
  | case1 =>
      cases h
      exact .lineEnd (by simp [atLineEnd])
  | case2 before interpolated pending c chars ih => exact ih (Nat.le_of_succ_le_succ hpending) h
  | case3 before interpolated c chars hline =>
      cases h
      exact .lineEnd hline
  | case4 before interpolated c hne hslash | case5 before interpolated c hne hslash
  | case6 before interpolated c hne hslash =>
      cases h
      rw [List.drop_zero, beq_iff_eq.mp hslash]
      exact .badEscape rfl
  | case7 before interpolated c chars hne hslash hnil hline hreturn ih =>
      obtain ⟨x, chars, rfl⟩ := List.exists_cons_of_ne_nil hnil
      obtain rfl : c = '\\' := beq_iff_eq.mp hslash
      refine .escape ?_ (ih (Nat.succ_le_succ (Nat.zero_le _)) h)
      unfold atLineBreak
      split
      · cases ‹x :: chars = []›
      · rename_i heq
        exact absurd heq (hline _)
      · rename_i heq
        exact absurd heq (hreturn _)
      · rfl
  | case8 before interpolated c chars hne hslash hstart error' herror =>
      cases h
      obtain ⟨hopen, hfault⟩ := interpolation_open hstart herror
      rw [List.drop_zero, Error.shift, hfault]
      exact .badInterpolation hopen
  | case9 before interpolated c chars hne hslash hstart count hcount ih =>
      obtain ⟨name, tail, heq, hname, rfl⟩ := interpolation_closed hstart hcount
      obtain ⟨rfl, rfl⟩ := List.cons.inj heq
      have hlen : name.length + 3 - 1 ≤ ('(' :: (name ++ ')' :: tail)).length := by
        simp only [List.length_cons, List.length_append]
        omega
      have hnext := ih hlen h
      have hdrop : (name ++ ')' :: tail).drop (name.length + 1) = tail := by
        rw [List.drop_append, List.drop_of_length_le (Nat.le_succ _), Nat.add_sub_cancel_left]
        rfl
      rw [show name.length + 3 - 1 = name.length + 1 + 1 by omega, List.drop_succ_cons,
        hdrop] at hnext
      exact .interpolation hname hnext
  | case10 => cases h
  | case11 before interpolated c chars hne hslash hstart hcloses ih =>
      refine .plain ?_ ?_ ?_ (Bool.eq_false_iff.mpr hstart) (ih (Nat.zero_le _) h)
      · simpa using hne
      · simpa using hslash
      · simpa using hcloses

/-- Where a token cannot be read, a string or an interpolation has the fault that is reported. -/
theorem unreadable_of_error {lineStart : Bool} {error : Error}
    (h : Token.scan lineStart c tail = .error error) : Unreadable error.fault (c :: tail) := by
  revert h
  fun_cases Token.scan lineStart c tail with
  | case4 chars _ _ _ hstart =>
      intro h
      cases hscan : interpolation chars with
      | ok => rw [hscan] at h; cases h
      | error =>
          rw [hscan] at h
          cases h
          obtain ⟨hopen, hfault⟩ := interpolation_open hstart hscan
          rw [hfault]
          exact .interpolation hopen
  | case6 chars _ _ _ _ _ hstart =>
      intro h
      cases hscan : quoted chars with
      | ok => rw [hscan] at h; cases h
      | error =>
          rw [hscan] at h
          cases h
          obtain ⟨body, hbody⟩ := startsQuoted_iff.mp hstart
          refine .string ?_ (quotedFrom_open (Nat.zero_le _) hscan)
          exact hbody.imp (fun h => (List.cons.inj h).1) fun h => (List.cons.inj h).1
  | _ =>
      intro h
      cases h

/-- The characters with which strings and interpolations start. -/
def isOpener (c : Char) : Bool :=
  c == '"' || c == '\'' || c == '$'

/-- What cannot be read starts with a quote or a dollar sign. -/
theorem Unreadable.exists_opener {fault : LexicalFault} (h : Unreadable fault chars) :
    ∃ x tail, chars = x :: tail ∧ isOpener x := by
  cases h with
  | string hquote =>
      refine ⟨_, _, rfl, ?_⟩
      rcases hquote with rfl | rfl <;> rfl
  | interpolation hopen =>
      obtain ⟨name, tail, rfl, -⟩ := hopen
      exact ⟨_, _, rfl, rfl⟩

/-! ### Recognizers in front of an opener -/

theorem isOpener_iff : isOpener x ↔ x = '"' ∨ x = '\'' ∨ x = '$' := by
  simp [isOpener, or_assoc]

/-- A class without the three characters holds no opener. -/
theorem isOpener_not_mem {p : Char → Bool} (hx : isOpener x)
    (hp : ['"', '\'', '$'].any p = false) : p x = false := by
  refine Bool.eq_false_iff.mpr (List.any_eq_false.mp hp x ?_)
  simpa using isOpener_iff.mp hx

theorem isOpener_ne {y : Char} (hx : isOpener x) (hy : isOpener y = false) : x ≠ y := by
  rintro rfl
  rw [hx] at hy
  cases hy

theorem startsQuoted_append_opener (x : Char) (tail : List Char) (c : Char) (chars : List Char) :
    startsQuoted (c :: (chars ++ x :: tail)) = startsQuoted (c :: chars) := by
  unfold startsQuoted
  split <;> simp_all

variable (hx : isOpener x) (tail : List Char)

include hx

theorem startsInterpolation_append_opener (c : Char) (chars : List Char) :
    startsInterpolation (c :: (chars ++ x :: tail)) = startsInterpolation (c :: chars) := by
  have hparen := isOpener_ne (y := '(') hx rfl
  rcases chars with _ | ⟨y, chars⟩
  · simp [startsInterpolation, hparen]
  · by_cases hc : c = '$' <;> by_cases hy : y = '(' <;> simp [startsInterpolation, hc, hy]

theorem continuation_append_opener (c : Char) (chars : List Char) :
    continuation (c :: (chars ++ x :: tail)) = continuation (c :: chars) := by
  have hblank : (x == ' ' || x == '\t') = false :=
    isOpener_not_mem (p := fun c => c == ' ' || c == '\t') hx rfl
  have hnewline := isOpener_ne (y := '\n') hx rfl
  have hreturn := isOpener_ne (y := '\r') hx rfl
  by_cases hc : c = '\\'
  · subst hc
    simp only [continuation, run_append_cons (p := fun c => c == ' ' || c == '\t') hblank,
      List.drop_append_of_le_length (run_le_length _ chars)]
    rcases chars.drop (run (fun c => c == ' ' || c == '\t') chars) with _ | ⟨y, _ | ⟨z, rest⟩⟩
    · simp [hnewline, hreturn]
    · by_cases hy : y = '\n' <;> by_cases hy' : y = '\r' <;> simp [hy, hy', hnewline]
    · by_cases hy : y = '\n' <;> by_cases hy' : y = '\r' <;> by_cases hz : z = '\n' <;>
        simp [hy, hy', hz]
  · simp [continuation, hc]

/-- A statement without an opener goes on to the opener, or it ends in front of it. -/
theorem statement_append_opener (chars : List Char) :
    statement (chars ++ x :: tail) =
      if statement chars = chars.length then chars.length + statement (x :: tail)
      else statement chars := by
  refine repeated_append_tail statementStep_le_length (fun c chars => ?_) chars
  simp only [List.cons_append, statementStep, continuation_append_opener hx tail]

/-- A comment that is over in front of the opener is over with its line. -/
theorem commentText_append_opener (h : commentText (chars ++ x :: tail) ≤ chars.length) :
    commentText chars = commentText (chars ++ x :: tail) := by
  have hreturn := isOpener_ne (y := '\r') hx rfl
  have hpos : 0 < statement (x :: tail) := statement_pos (isOpener_ne hx rfl)
  have hstatement := statement_append_opener hx tail chars
  by_cases hall : statement chars = chars.length
  · rw [if_pos hall] at hstatement
    exfalso
    unfold commentText at h
    simp only [hstatement] at h
    split at h
    · -- the last character is a carriage return, so it is not the opener
      rename_i hlast
      obtain hone : statement (x :: tail) = 1 := by omega
      rw [hone, List.take_append, List.take_of_length_le (Nat.le_add_right _ _),
        Nat.add_sub_cancel_left] at hlast
      simp [hreturn] at hlast
    · omega
  · rw [if_neg hall] at hstatement
    simp only [commentText, hstatement,
      List.take_append_of_le_length (statement_le_length chars)]

/-- Numbers end in front of an opener. -/
theorem suffixedNumber_append_opener (chars : List Char) :
    suffixedNumber (chars ++ x :: tail) = suffixedNumber chars :=
  suffixedNumber_append_cons (isOpener_not_mem hx (by decide)) (isOpener_not_mem hx (by decide))

/-- Words end in front of an opener. -/
theorem word_append_opener (chars : List Char) : word (chars ++ x :: tail) = word chars :=
  word_append_cons (isOpener_not_mem hx (by decide))

theorem coordinate_append_opener (c : Char) (chars : List Char) :
    coordinate (c :: (chars ++ x :: tail)) = coordinate (c :: chars) := by
  have hnumber := suffixedNumber_append_opener hx tail (c :: chars)
  rw [List.cons_append] at hnumber
  simp only [coordinate, minus_append_cons (isOpener_ne hx rfl), hnumber,
    List.drop_append_of_le_length (inline_minus chars).le_length,
    decimal_append_cons (isOpener_not_mem hx (by decide)) (isOpener_ne hx rfl)]

theorem fakePlayer_append_opener (c : Char) (chars : List Char) :
    fakePlayer (c :: (chars ++ x :: tail)) = fakePlayer (c :: chars) := by
  have hrun : run? isPathChar (chars ++ x :: tail) = run? isPathChar chars := by
    rw [run?, run_append_cons (isOpener_not_mem hx (by decide)), run?]
  by_cases hc : c = '#' <;> simp [fakePlayer, hc, hrun]

/-- The longest token ends in front of an opener. -/
theorem longest_append_opener (c : Char) (chars : List Char) :
    Token.longest c (c :: (chars ++ x :: tail)) = Token.longest c (c :: chars) := by
  have hnumber := suffixedNumber_append_opener hx tail (c :: chars)
  have hword := word_append_opener hx tail (c :: chars)
  rw [List.cons_append] at hnumber hword
  simp only [Token.longest, wholeNumber, hnumber, hword]

end Scan

/-! ### Tokens in front of an opener -/

namespace Token

variable {lineStart : Bool} {c x : Char} {chars tail : List Char} {kind : TokenKind} {n : Nat}

/-- A token that is over in front of an opener is a token of the text in front of it. Comments,
strings and interpolations may hold openers, so for them it matters that they are over. -/
theorem scan_append_cons (hx : Scan.isOpener x)
    (h : scan lineStart c (chars ++ x :: tail) = .ok (kind, n)) (hn : n ≤ chars.length + 1) :
    scan lineStart c chars = .ok (kind, n) := by
  have hblanks : Scan.run Scan.isBlank (c :: (chars ++ x :: tail)) =
      Scan.run Scan.isBlank (c :: chars) := by
    rw [← List.cons_append,
      Scan.run_append_cons (Scan.isOpener_not_mem (p := Scan.isBlank) hx (by decide))]
  have hletter : (chars ++ x :: tail).head?.any Char.isAlpha = chars.head?.any Char.isAlpha := by
    rcases chars with _ | ⟨y, chars⟩
    · exact Scan.isOpener_not_mem (p := Char.isAlpha) hx (by decide)
    · rfl
  have htake : ∀ {m}, m ≤ chars.length + 1 →
      ∃ rest, c :: chars = (c :: (chars ++ x :: tail)).take m ++ rest := by
    intro m hm
    refine ⟨(c :: chars).drop m, ?_⟩
    rw [← List.cons_append, List.take_append_of_le_length hm, List.take_append_drop]
  simp only [scan, hblanks, Scan.startsInterpolation_append_opener hx tail, hletter,
    Scan.startsQuoted_append_opener x tail,
    Scan.coordinate_append_opener hx tail, Scan.continuation_append_opener hx tail,
    Scan.fakePlayer_append_opener hx tail, Scan.longest_append_opener hx tail] at h ⊢
  by_cases hline : (c == '\n') = true
  · rwa [if_pos hline] at h ⊢
  rw [if_neg hline] at h ⊢
  by_cases hblank : Scan.isBlank c = true
  · rwa [if_pos hblank] at h ⊢
  rw [if_neg hblank] at h ⊢
  by_cases hcomment : (c == '#' && lineStart) = true
  · rw [if_pos hcomment] at h ⊢
    cases h
    rw [← List.cons_append] at hn ⊢
    rw [Scan.commentText_append_opener hx tail hn]
  rw [if_neg hcomment] at h ⊢
  by_cases hstart : Scan.startsInterpolation (c :: chars) = true
  · rw [if_pos hstart] at h ⊢
    cases hscan : Scan.interpolation (c :: (chars ++ x :: tail)) with
    | error => rw [hscan] at h; cases h
    | ok m =>
        rw [hscan] at h
        cases h
        obtain ⟨rest, hrest⟩ := htake hn
        rw [← Scan.startsInterpolation_append_opener hx tail] at hstart
        rw [hrest, Scan.interpolation_take_append hstart hscan]
        rfl
  rw [if_neg hstart] at h ⊢
  by_cases hsigil : (c == '$' && lineStart) = true
  · rwa [if_pos hsigil] at h ⊢
  rw [if_neg hsigil] at h ⊢
  by_cases hquoted : Scan.startsQuoted (c :: chars) = true
  · rw [if_pos hquoted] at h ⊢
    cases hscan : Scan.quoted (c :: (chars ++ x :: tail)) with
    | error => rw [hscan] at h; cases h
    | ok q =>
        rw [hscan] at h
        cases h
        obtain ⟨rest, hrest⟩ := htake hn
        rw [← Scan.startsQuoted_append_opener x tail] at hquoted
        rw [hrest, Scan.quoted_take_append hquoted hscan]
        rfl
  rwa [if_neg hquoted] at h ⊢

end Token

end Mcfunction
