import Mcfunction.Proofs.Gaps.Scan
import Mcfunction.Proofs.Progress.Scan
import Mcfunction.Proofs.Spans.Text

/-!
# Well-Bracketed Text

Text between brackets in which every bracket is closed by its own kind. A quoted string and a
line continuation count as a whole, so brackets in a string mean nothing; quotes, backslashes and
line breaks stand nowhere else.

Recovery skips such text exactly: the chunk that starts at its opening bracket ends behind the
bracket that closes it. The parsers see the same parts, since each of them takes plain characters,
a whole string or a whole continuation, and stops in front of a bracket.

## Main results

* `Inside.drop_taken`, `Inside.drop_trivia`, `Inside.exists_string`: what a parser takes from the
  text between brackets leaves whole parts.
* `balancedChunk_bracketed`: what recovery skips.
-/

namespace Mcfunction

/-- The character that opens the container. -/
def Bracket.opener : Bracket → Char
  | .square => '['
  | .curly => '{'

namespace Scan

/-- Characters that mean nothing to brackets. -/
def isPlain (c : Char) : Bool :=
  match c with
  | '[' | ']' | '{' | '}' | '"' | '\'' | '\\' | '\n' => false
  | _ => true

/-- The text between two brackets: any row of containers, complete quoted strings, whole line
continuations and plain characters. -/
inductive Inside : List Char → Prop
  /-- Nothing. -/
  | nil : Inside []
  /-- A container and what follows it. -/
  | container {bracket : Bracket} {inner rest : List Char} : Inside inner → Inside rest →
      Inside (bracket.opener :: inner ++ bracket.closer :: rest)
  /-- A complete quoted string and what follows it. -/
  | string {text rest : List Char} {q : Quoted} : startsQuoted text → quoted text = .ok q →
      q.count = text.length → Inside rest → Inside (text ++ rest)
  /-- A whole line continuation and what follows it. -/
  | joint {text rest : List Char} : continuation text = some text.length → Inside rest →
      Inside (text ++ rest)
  /-- A plain character and what follows it. -/
  | plain {x : Char} {rest : List Char} : isPlain x → Inside rest → Inside (x :: rest)

/-- Well-bracketed text: a container of either kind. -/
inductive Bracketed : List Char → Prop
  /-- Two brackets of the same kind and what stands between them. -/
  | mk {bracket : Bracket} {inside : List Char} : Inside inside →
      Bracketed (bracket.opener :: inside ++ [bracket.closer])

variable {inside chars tail : List Char} {bracket : Bracket} {x : Char} {n : Nat}

/-! ### Where a part starts -/

/-- A closing bracket is one of two characters. -/
theorem closer_cases (bracket : Bracket) : bracket.closer = ']' ∨ bracket.closer = '}' := by
  cases bracket with
  | square => exact .inl rfl
  | curly => exact .inr rfl

/-- An opening bracket is one of two characters. -/
theorem opener_cases (bracket : Bracket) : bracket.opener = '[' ∨ bracket.opener = '{' := by
  cases bracket with
  | square => exact .inl rfl
  | curly => exact .inr rfl

/-- A part starts with no closing bracket and no line break. -/
theorem Inside.head (h : Inside (x :: chars)) : x ≠ ']' ∧ x ≠ '}' ∧ x ≠ '\n' := by
  generalize heq : x :: chars = text at h
  cases h with
  | nil => cases heq
  | @container bracket =>
      obtain ⟨rfl, -⟩ := List.cons.inj heq
      rcases opener_cases bracket with h | h <;> rw [h] <;> decide
  | string hstart =>
      obtain ⟨y, rest, rfl, hy⟩ := exists_of_startsQuoted hstart
      obtain ⟨rfl, -⟩ := List.cons.inj heq
      rcases hy with rfl | rfl <;> decide
  | joint hjoint =>
      obtain ⟨rest, rfl⟩ := exists_of_continuation hjoint
      obtain ⟨rfl, -⟩ := List.cons.inj heq
      decide
  | plain hx =>
      obtain ⟨rfl, -⟩ := List.cons.inj heq
      refine ⟨?_, ?_, ?_⟩ <;> rintro rfl <;> cases hx

/-- What follows the text between brackets is a closing bracket, which is no part of it. -/
theorem isPlain_closer (bracket : Bracket) : isPlain bracket.closer = false := by
  cases bracket with
  | square => rfl
  | curly => rfl

theorem isPlain_opener (bracket : Bracket) : isPlain bracket.opener = false := by
  cases bracket with
  | square => rfl
  | curly => rfl

/-- The characters that are not plain, one by one. -/
theorem mem_of_isPlain_eq_false (h : isPlain x = false) :
    x ∈ ['[', ']', '{', '}', '"', '\'', '\\', '\n'] := by
  unfold isPlain at h
  split at h
  case h_9 => cases h
  all_goals simp

/-- A class of characters without special characters has plain characters only. -/
theorem isPlain_of_class {p : Char → Bool}
    (hp : ['[', ']', '{', '}', '"', '\'', '\\', '\n'].all fun y => !p y) (hx : p x) :
    isPlain x := by
  by_contra hplain
  rw [Bool.not_eq_true] at hplain
  have hnone := List.all_eq_true.mp hp x (mem_of_isPlain_eq_false hplain)
  rw [hx] at hnone
  cases hnone

theorem isPlain_of_isSolidChar (hx : isSolidChar x) : isPlain x :=
  isPlain_of_class rfl hx

theorem isPlain_of_isTokenChar (hx : isTokenChar x) : isPlain x :=
  isPlain_of_isSolidChar (isSolidChar_of_isTokenChar hx)

theorem isPlain_of_isLeadChar {inKey : Bool} (hx : isLeadChar inKey x) : isPlain x :=
  isPlain_of_class (by cases inKey <;> rfl) hx

theorem isPlain_of_isOperator (hx : isOperator x) : isPlain x :=
  isPlain_of_class rfl hx

/-! ### What is taken from the front -/

/-- Plain characters that are taken are parts. -/
theorem Inside.drop_taken (h : Inside inside)
    (hn : Taken isPlain (inside ++ bracket.closer :: tail) n) :
    n ≤ inside.length ∧ Inside (inside.drop n) := by
  induction n generalizing inside with
  | zero => exact ⟨Nat.zero_le _, h⟩
  | succ n ih =>
      cases h with
      | nil =>
          have hx := hn.of_cons.1
          rw [isPlain_closer] at hx
          cases hx
      | @container bracket' =>
          have hx := hn.of_cons.1
          rw [isPlain_opener] at hx
          cases hx
      | string hstart =>
          obtain ⟨y, rest, rfl, rfl | rfl⟩ := exists_of_startsQuoted hstart
          · cases hn.of_cons.1
          · cases hn.of_cons.1
      | joint hjoint =>
          obtain ⟨rest, rfl⟩ := exists_of_continuation hjoint
          cases hn.of_cons.1
      | plain _ hrest =>
          obtain ⟨hle, hdrop⟩ := ih hrest hn.of_cons.2
          exact ⟨Nat.succ_le_succ hle, hdrop⟩

/-- A whole continuation is one, whatever follows it. -/
theorem triviaStep_joint (h : continuation chars = some chars.length) (tail : List Char) :
    triviaStep (chars ++ tail) = chars.length := by
  obtain ⟨gap, line, htake, hgap, hline⟩ := take_continuation h
  rw [List.take_length] at htake
  rw [htake]
  exact triviaStep_continuation hgap hline tail

/-- A continuation that is the whole text is one with any text behind it. -/
theorem continuation_joint (h : continuation chars = some chars.length) (tail : List Char) :
    continuation (chars ++ tail) = some chars.length := by
  have hstep := triviaStep_joint h tail
  have hpos := two_le_continuation h
  obtain ⟨rest, rfl⟩ := exists_of_continuation h
  rw [List.cons_append] at hstep ⊢
  change (continuation ('\\' :: (rest ++ tail))).getD 0 = _ at hstep
  cases hcont : continuation ('\\' :: (rest ++ tail)) with
  | none =>
      rw [hcont, Option.getD_none] at hstep
      omega
  | some n =>
      rw [hcont, Option.getD_some] at hstep
      rw [hstep]

theorem continuation_of_ne (hx : x ≠ '\\') : continuation (x :: chars) = none := by
  cases hcont : continuation (x :: chars) with
  | none => rfl
  | some n =>
      obtain ⟨rest, heq⟩ := exists_of_continuation hcont
      exact absurd (List.cons.inj heq).1 hx

theorem trivia_of_step_zero (h : triviaStep chars = 0) : trivia chars = 0 :=
  repeated_of_step_zero h

theorem trivia_of_step (hpos : 0 < triviaStep chars) :
    trivia chars = triviaStep chars + trivia (chars.drop (triviaStep chars)) :=
  repeated_of_step_pos hpos (triviaStep_le_length chars)

/-- The trivia at the front are parts. -/
theorem Inside.drop_trivia (h : Inside inside) (bracket : Bracket) (tail : List Char) :
    trivia (inside ++ bracket.closer :: tail) ≤ inside.length ∧
      Inside (inside.drop (trivia (inside ++ bracket.closer :: tail))) := by
  induction h with
  | nil =>
      have hstep : triviaStep (bracket.closer :: tail) = 0 := by
        cases bracket with
        | square => rfl
        | curly => rfl
      rw [List.nil_append, trivia_of_step_zero hstep]
      exact ⟨le_rfl, .nil⟩
  | @container bracket' inner rest hinner hrest =>
      have hstep : triviaStep (bracket'.opener ::
          (inner ++ bracket'.closer :: rest ++ bracket.closer :: tail)) = 0 := by
        cases bracket' with
        | square => rfl
        | curly => rfl
      rw [List.cons_append, List.cons_append, trivia_of_step_zero hstep]
      exact ⟨Nat.zero_le _, .container hinner hrest⟩
  | @string text rest q hstart hok hcount hrest =>
      have hstep : triviaStep (text ++ rest ++ bracket.closer :: tail) = 0 := by
        obtain ⟨y, rest, rfl, rfl | rfl⟩ := exists_of_startsQuoted hstart
        · rfl
        · rfl
      rw [trivia_of_step_zero hstep]
      exact ⟨Nat.zero_le _, .string hstart hok hcount hrest⟩
  | @joint text rest hjoint hrest ih =>
      have hstep := triviaStep_joint hjoint (rest ++ bracket.closer :: tail)
      have hpos := two_le_continuation hjoint
      rw [List.append_assoc, trivia_of_step (by omega), hstep, List.drop_left, List.length_append,
        List.drop_length_add_append]
      exact ⟨Nat.add_le_add_left ih.1 _, ih.2⟩
  | @plain x rest hx hrest ih =>
      have hstep : triviaStep (x :: (rest ++ bracket.closer :: tail)) =
          if isBlank x then 1 else 0 := by
        rw [triviaStep]
        split
        · rfl
        · rw [continuation_of_ne (by rintro rfl; cases hx)]
          rfl
      rw [List.cons_append]
      by_cases hblank : isBlank x
      · rw [if_pos hblank] at hstep
        rw [trivia_of_step (by omega), hstep, List.drop_succ_cons, List.drop_zero, Nat.add_comm,
          List.drop_succ_cons]
        exact ⟨Nat.succ_le_succ ih.1, ih.2⟩
      · rw [if_neg hblank] at hstep
        rw [trivia_of_step_zero hstep]
        exact ⟨Nat.zero_le _, .plain hx hrest⟩

/-- A string at the front is a part, and the recognizer finds it whatever follows it. -/
theorem Inside.exists_string (h : Inside inside)
    (hstart : startsQuoted (inside ++ bracket.closer :: tail)) :
    ∃ text rest q, inside = text ++ rest ∧ quoted text = .ok q ∧ q.count = text.length ∧
      Inside rest ∧ quoted (inside ++ bracket.closer :: tail) = .ok q := by
  cases h with
  | nil => rcases closer_cases bracket with h | h <;> rw [h] at hstart <;> cases hstart
  | @container bracket' =>
      rcases opener_cases bracket' with h | h <;> rw [h] at hstart <;> cases hstart
  | @string text rest q htext hok hcount hrest =>
      have happend := quoted_take_append htext hok (rest ++ bracket.closer :: tail)
      rw [hcount, List.take_length, ← List.append_assoc] at happend
      exact ⟨text, rest, q, rfl, hok, hcount, hrest, happend⟩
  | joint hjoint =>
      obtain ⟨more, rfl⟩ := exists_of_continuation hjoint
      cases hstart
  | @plain x rest hx =>
      obtain ⟨y, more, heq, hy⟩ := exists_of_startsQuoted hstart
      obtain ⟨rfl, -⟩ := List.cons.inj heq
      rcases hy with rfl | rfl <;> cases hx

/-- An opening bracket at the front starts a container of its kind. -/
theorem Inside.exists_container (h : Inside (bracket.opener :: chars)) :
    ∃ inner rest, chars = inner ++ bracket.closer :: rest ∧ Inside inner ∧ Inside rest := by
  generalize heq : bracket.opener :: chars = text at h
  have hne : ∀ y, isPlain y = false → y ≠ '[' → y ≠ '{' → bracket.opener ≠ y := by
    rintro y - hsquare hcurly rfl
    rcases opener_cases bracket with h | h
    · exact hsquare h
    · exact hcurly h
  cases h with
  | nil => cases heq
  | @container bracket' inner rest hinner hrest =>
      obtain ⟨hopener, rfl⟩ := List.cons.inj heq
      obtain rfl : bracket = bracket' := by
        cases bracket <;> cases bracket' <;> first | rfl | cases hopener
      exact ⟨inner, rest, rfl, hinner, hrest⟩
  | string hstart =>
      obtain ⟨y, more, rfl, hy⟩ := exists_of_startsQuoted hstart
      have hopener := (List.cons.inj heq).1
      rcases hy with rfl | rfl
      · exact absurd hopener (hne _ rfl (by decide) (by decide))
      · exact absurd hopener (hne _ rfl (by decide) (by decide))
  | joint hjoint =>
      obtain ⟨more, rfl⟩ := exists_of_continuation hjoint
      exact absurd (List.cons.inj heq).1 (hne _ rfl (by decide) (by decide))
  | plain hx =>
      rw [← (List.cons.inj heq).1, isPlain_opener] at hx
      cases hx

/-! ### What recovery skips -/

/-- A turn of a chunk and the rest of the chunk. -/
theorem balancedChunk_of_next {closers closers' : List Char}
    (h : balancedTurn closers chars = .next n closers') :
    balancedChunk closers 0 chars = n + balancedChunk closers' 0 (chars.drop n) := by
  rw [balancedChunk_eq_turn, h]
  rfl

/-- A plain character is skipped by itself, and so is a blank between brackets. -/
theorem balancedTurn_plain {closers : List Char} (hx : isPlain x)
    (h : closers ≠ [] ∨ isBlank x = false) :
    balancedTurn closers (x :: chars) = .next 1 closers := by
  have hne : ∀ y, isPlain y = false → x ≠ y := by
    rintro y hy rfl
    rw [hx] at hy
    cases hy
  have hblank : (isBlank x && closers.isEmpty) = false := by
    rw [Bool.and_eq_false_iff, List.isEmpty_eq_false_iff]
    exact h.symm
  simp [balancedTurn, continuation_of_ne (hne '\\' rfl), hblank, hne '\n' rfl, hne '"' rfl,
    hne '\'' rfl, hne '[' rfl, hne '{' rfl, hne ']' rfl, hne '}' rfl]

/-- An opening bracket makes the chunk go on to the closing one. -/
theorem balancedChunk_opener (closers : List Char) (bracket : Bracket) (chars : List Char) :
    balancedChunk closers 0 (bracket.opener :: chars) =
      1 + balancedChunk (bracket.closer :: closers) 0 chars := by
  refine balancedChunk_of_next ?_
  cases bracket with
  | square => simp [balancedTurn, Bracket.opener, Bracket.closer, continuation, isBlank]
  | curly => simp [balancedTurn, Bracket.opener, Bracket.closer, continuation, isBlank]

/-- The last bracket that is wanted ends the chunk. -/
theorem balancedChunk_closer (bracket : Bracket) (outer chars : List Char) :
    balancedChunk (bracket.closer :: outer) 0 (bracket.closer :: chars) =
      if outer = [] then 1 else 1 + balancedChunk outer 0 chars := by
  have hturn : balancedTurn (bracket.closer :: outer) (bracket.closer :: chars) =
      if outer = [] then .stop 1 else .next 1 outer := by
    cases bracket with
    | square => simp [balancedTurn, Bracket.closer, continuation, isBlank]
    | curly => simp [balancedTurn, Bracket.closer, continuation, isBlank]
  rw [balancedChunk_eq_turn, hturn]
  split
  · rfl
  · rfl

/-- Between brackets every part is skipped whole. -/
theorem Inside.balancedChunk_append (h : Inside inside) (bracket : Bracket)
    (outer tail : List Char) :
    balancedChunk (bracket.closer :: outer) 0 (inside ++ bracket.closer :: tail) =
      inside.length + balancedChunk (bracket.closer :: outer) 0 (bracket.closer :: tail) := by
  induction h generalizing bracket outer tail with
  | nil => simp
  | @container bracket' inner rest _ _ ihinner ihrest =>
      rw [List.cons_append, List.cons_append, List.append_assoc, List.cons_append,
        balancedChunk_opener, ihinner, balancedChunk_closer, if_neg (List.cons_ne_nil _ _), ihrest]
      simp only [List.length_append, List.length_cons]
      omega
  | @string text rest q hstart hok hcount _ ih =>
      have happend := quoted_take_append hstart hok (rest ++ bracket.closer :: tail)
      rw [hcount, List.take_length] at happend
      have hturn : balancedTurn (bracket.closer :: outer)
          (text ++ (rest ++ bracket.closer :: tail)) =
          .next text.length (bracket.closer :: outer) := by
        obtain ⟨y, more, rfl, hy⟩ := exists_of_startsQuoted hstart
        rw [List.cons_append] at happend ⊢
        rcases hy with rfl | rfl
        · simp [balancedTurn, continuation, happend, hcount]
        · simp [balancedTurn, continuation, happend, hcount]
      rw [List.append_assoc, balancedChunk_of_next hturn, List.drop_left, ih, List.length_append]
      omega
  | @joint text rest hjoint _ ih =>
      have happend := continuation_joint hjoint (rest ++ bracket.closer :: tail)
      have hturn : balancedTurn (bracket.closer :: outer)
          (text ++ (rest ++ bracket.closer :: tail)) =
          .next text.length (bracket.closer :: outer) := by
        obtain ⟨more, rfl⟩ := exists_of_continuation hjoint
        rw [List.cons_append] at happend ⊢
        simp [balancedTurn, happend]
      rw [List.append_assoc, balancedChunk_of_next hturn, List.drop_left, ih, List.length_append]
      omega
  | @plain x rest hx _ ih =>
      have hturn := @balancedTurn_plain (rest ++ bracket.closer :: tail) _
        (bracket.closer :: outer) hx (.inl (List.cons_ne_nil _ _))
      rw [List.cons_append, balancedChunk_of_next hturn, List.drop_succ_cons, List.drop_zero, ih,
        List.length_cons]
      omega

/-- Recovery skips well-bracketed text exactly. -/
theorem balancedChunk_bracketed (h : Bracketed chars) (tail : List Char) :
    balancedChunk [] 0 (chars ++ tail) = chars.length := by
  obtain @⟨bracket, inside, hinside⟩ := h
  rw [List.cons_append, List.cons_append, List.append_assoc, List.singleton_append,
    balancedChunk_opener, hinside.balancedChunk_append, balancedChunk_closer, if_pos rfl]
  simp only [List.length_append, List.length_cons, List.length_nil]
  omega

/-! ### No interpolation -/

/-- An interpolation that starts in front of a bracket has its `$(` there as well. -/
theorem startsInterpolation_append_closer (hnone : ¬ ['$', '('] <:+: inside) :
    startsInterpolation (inside ++ bracket.closer :: tail) = false := by
  rw [Bool.eq_false_iff]
  intro hstart
  obtain ⟨body, heq⟩ := startsInterpolation_iff.mp hstart
  rcases inside with _ | ⟨x, _ | ⟨y, rest⟩⟩
  · rcases closer_cases bracket with h | h <;> rw [h] at heq <;> cases heq
  · rcases closer_cases bracket with h | h <;> rw [h] at heq <;> cases heq
  · obtain ⟨rfl, hrest⟩ := List.cons.inj heq
    obtain ⟨rfl, -⟩ := List.cons.inj hrest
    exact hnone ⟨[], rest, rfl⟩

/-- A string without `$(` has no interpolation. -/
theorem quotedFrom_interpolated {closes : Char → Bool} {before pending : Nat}
    {interpolated : Bool} {q : Quoted} (hnone : ¬ ['$', '('] <:+: chars)
    (h : quotedFrom closes before interpolated pending chars = .ok q) :
    q.interpolated = interpolated := by
  have htail : ∀ {c : Char} {rest : List Char}, ¬ ['$', '('] <:+: c :: rest →
      ¬ ['$', '('] <:+: rest :=
    fun hnone hpart => hnone (hpart.trans (List.suffix_cons _ _).isInfix)
  fun_induction quotedFrom closes before interpolated pending chars with
  | case1 | case3 | case4 | case5 | case6 | case8 => cases h
  | case2 before interpolated pending c chars ih => exact ih (htail hnone) h
  | case7 before interpolated c chars hne hslash hnil hline hreturn ih => exact ih (htail hnone) h
  | case9 before interpolated c chars hne _ hstart =>
      obtain ⟨body, heq⟩ := startsInterpolation_iff.mp hstart
      rw [heq] at hnone
      exact absurd ⟨[], body, rfl⟩ hnone
  | case10 =>
      cases h
      rfl
  | case11 before interpolated c chars hne _ _ _ ih => exact ih (htail hnone) h

/-- A quoted string in a text without interpolations has none. -/
theorem quoted_interpolated {q : Quoted} (hnone : ¬ ['$', '('] <:+: chars)
    (h : quoted chars = .ok q) : q.interpolated = false := by
  rcases chars with _ | ⟨quote, body⟩
  · cases h
  · exact quotedFrom_interpolated
      (fun hpart => hnone (hpart.trans (List.suffix_cons _ _).isInfix)) h

end Scan

end Mcfunction
