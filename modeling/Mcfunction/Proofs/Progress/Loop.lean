import Mcfunction.Proofs.Parser.Steady

/-!
# Loops and Their Turns

A loop of a parser is written with fuel, so that it is defined for every text. To say that the
fuel is scaffolding, a loop is taken apart into its turns: `repeating turn` takes one turn after
the other until one is the last. A turn makes progress if it ends behind the place where what it
read starts, and then a text with fewer characters is left; so a loop whose turns make progress
ends by itself, and more fuel changes nothing.

Scanning loops count characters instead of moving a cursor; `Scan.Loop` is the same for them.

## Main results

* `Loop.of_advances`: a loop whose turns make progress ends.
* `Scan.Loop.of_advances`: a scanning loop whose turns make progress stays in the text.
-/

namespace Mcfunction

variable {State α β : Type}

namespace Outcome

/-- No promise is broken, and a success meets `post`. -/
def Keeps (post : α → Cursor → Prop) : Outcome α → Prop
  | .done value _ next => post value next
  | .failed _ _ => True
  | .broken _ => False

variable {post post' : α → Cursor → Prop} {outcome : Outcome α}

/-- A sound run keeps what it promises. -/
theorem Sound.keeps {origin : Cursor} (h : outcome.Sound origin post) : outcome.Keeps post := by
  cases h with
  | done hvalue => exact hvalue
  | failed => trivial

theorem Keeps.mono (h : outcome.Keeps post) (hpost : ∀ value d, post value d → post' value d) :
    outcome.Keeps post' := by
  cases outcome with
  | done value log d => exact hpost _ _ h
  | failed => trivial
  | broken => exact h.elim

/-- Events that came before do not matter. -/
theorem Keeps.after (h : outcome.Keeps post) (earlier : List Event) :
    (outcome.after earlier).Keeps post := by
  cases outcome with
  | done => exact h
  | failed => trivial
  | broken => exact h.elim

/-- The rule for going on after a success. -/
theorem Keeps.andThen {post : β → Cursor → Prop} {mid : α → Cursor → Prop}
    {f : α → Cursor → Outcome β} (h : outcome.Keeps mid)
    (hf : ∀ value d, mid value d → (f value d).Keeps post) : (outcome.andThen f).Keeps post := by
  cases outcome with
  | done value log d => exact (hf _ _ h).after log
  | failed => trivial
  | broken => exact h.elim

theorem Keeps.ne_broken (h : outcome.Keeps post) (fault : Fault) : outcome ≠ .broken fault := by
  rintro rfl
  exact h

theorem after_after (outcome : Outcome α) (earlier log : List Event) :
    (outcome.after log).after earlier = outcome.after (earlier ++ log) := by
  cases outcome <;> simp [Outcome.after]

theorem after_andThen (outcome : Outcome α) (log : List Event) (f : α → Cursor → Outcome β) :
    (outcome.after log).andThen f = (outcome.andThen f).after log := by
  cases outcome with
  | done value later d => rw [after_done, andThen_done, andThen_done, after_after]
  | failed => rfl
  | broken => rfl

end Outcome

namespace Parser

theorem id_map (p : Parser α) : id <$> p = p := by
  funext s c
  rw [map_eq_bind, bind_run]
  cases p s c <;> simp [pure_run, Outcome.andThen]

theorem pure_bind (value : α) (f : α → Parser β) : (Pure.pure value >>= f) = f value := by
  funext s c
  rw [bind_run, pure_run, Outcome.andThen_done, Outcome.after_nil]

theorem bind_assoc {γ : Type} (p : Parser α) (f : α → Parser β) (g : β → Parser γ) :
    (p >>= f >>= g) = p >>= fun value => f value >>= g := by
  funext s c
  rw [bind_run, bind_run, bind_run]
  cases p s c with
  | done value log d => exact Outcome.after_andThen _ _ _
  | failed => rfl
  | broken => rfl

instance : LawfulMonad Parser :=
  LawfulMonad.mk' Parser id_map pure_bind bind_assoc

/-! ### Turns -/

/-- How a turn of a loop ends. -/
inductive Turn (State α : Type) where
  /-- It was the last one. -/
  | stop (values : List α)
  /-- Another one follows, in some state. -/
  | next (values : List α) (state : State)

/-- Turn after turn until one is the last, `fuel` of them at most; the values of all of them. -/
def repeating (turn : State → Parser (Turn State α)) : Nat → State → Parser (List α)
  | 0, _ => breakOff .stalled
  | fuel + 1, state => do
    match ← turn state with
    | .stop values => return values
    | .next values state => return values ++ (← repeating turn fuel state)

/-- Where a turn may end. The last one ends at a `last` place. Any other one ends behind `start`
and in the text, since places are only compared along the text; and the next turn is `ready`
there. -/
def Turn.Ends (ready : State → Cursor → Prop) (start : Cursor) (last : Cursor → Prop) :
    Turn State α → Cursor → Prop
  | .stop _, d => last d
  | .next _ state, d => start < d ∧ ready state d

/-- A loop under some settings. Where it is `ready` to take a turn, the turn breaks no promise and
ends behind the place where what it reads starts, or it is the last. So the loop ends. -/
structure Loop (s : Settings) (ready : State → Cursor → Prop) (start : Cursor → Cursor)
    (last : Cursor → Cursor → Prop) (turn : State → Parser (Turn State α))
    (loop : Nat → State → Parser (List α)) : Prop where
  /-- The loop repeats its turn. -/
  repeats : ∀ fuel state, loop fuel state = repeating turn fuel state
  /-- A turn makes progress. -/
  advances : ∀ state c, ready state c →
    (turn state s c).Keeps (Turn.Ends ready (start c) (last c))
  /-- With more fuel than there are characters the loop breaks no promise and does not go back,
  and more fuel changes nothing. -/
  ends : ∀ fuel state c, ready state c → c.rest.length < fuel →
    (loop fuel state s c).Keeps (fun _ d => c ≤ d) ∧
      loop fuel state s c = loop (c.rest.length + 1) state s c

section

variable {s : Settings} {ready : State → Cursor → Prop} {start : Cursor → Cursor}
  {last : Cursor → Cursor → Prop} {turn : State → Parser (Turn State α)}
  {loop : Nat → State → Parser (List α)} {state : State} {c : Cursor}

/-- One more turn, and the others behind it. -/
theorem repeating_succ (turn : State → Parser (Turn State α)) (fuel : Nat) (state : State) :
    repeating turn (fuel + 1) state s c = (turn state s c).andThen fun outcome d =>
      match outcome with
      | .stop values => .done values [] d
      | .next values state =>
        (repeating turn fuel state s d).andThen fun more e => .done (values ++ more) [] e := by
  rw [repeating, bind_run]
  congr 1
  funext outcome d
  cases outcome <;> rfl

section Progress

variable (hstart : ∀ c, c ≤ start c) (hlast : ∀ c d, last c d → c ≤ d)
  (advances : ∀ state c, ready state c →
    (turn state s c).Keeps (Turn.Ends ready (start c) (last c)))

include hstart advances

/-- Given enough fuel, the result does not depend on how much there is. -/
theorem repeating_eq {fuel fuel' : Nat} (hready : ready state c) (hfuel : c.rest.length < fuel)
    (hfuel' : c.rest.length < fuel') :
    repeating turn fuel state s c = repeating turn fuel' state s c := by
  induction fuel generalizing fuel' state c with
  | zero => exact absurd hfuel (Nat.not_lt_zero _)
  | succ fuel ih =>
      obtain ⟨fuel', rfl⟩ := Nat.exists_eq_succ_of_ne_zero (Nat.ne_zero_of_lt hfuel')
      rw [repeating_succ, repeating_succ]
      have hturn := advances state c hready
      generalize turn state s c = outcome at hturn ⊢
      cases outcome with
      | failed => rfl
      | broken => rfl
      | done value log d =>
          cases value with
          | stop values => rfl
          | next values state =>
              -- the turn has left fewer characters
              have hlength := Cursor.length_lt_of_lt ((hstart c).trans_lt hturn.1)
              have hrest : repeating turn fuel state s d = repeating turn fuel' state s d :=
                ih hturn.2 (by omega) (by omega)
              rw [Outcome.andThen_done, Outcome.andThen_done]
              dsimp only
              rw [hrest]

include hlast

/-- Given enough fuel, a loop goes forward and breaks no promise. -/
theorem repeating_keeps {fuel : Nat} (hready : ready state c) (hfuel : c.rest.length < fuel) :
    (repeating turn fuel state s c).Keeps fun _ d => c ≤ d := by
  induction fuel generalizing state c with
  | zero => exact absurd hfuel (Nat.not_lt_zero _)
  | succ fuel ih =>
      rw [repeating_succ]
      refine (advances state c hready).andThen fun outcome d houtcome => ?_
      cases outcome with
      | stop values => exact hlast _ _ houtcome
      | next values state =>
          have hlt := (hstart c).trans_lt houtcome.1
          have hlength := Cursor.length_lt_of_lt hlt
          refine (ih houtcome.2 (by omega)).andThen fun _ e he => ?_
          exact hlt.le.trans he

/-- A loop whose turns make progress ends. -/
theorem Loop.of_advances (repeats : ∀ fuel state, loop fuel state = repeating turn fuel state) :
    Loop s ready start last turn loop where
  repeats := repeats
  advances := advances
  ends := by
    intro fuel state c hready hfuel
    rw [repeats, repeats]
    constructor
    · exact repeating_keeps hstart hlast advances hready hfuel
    · exact repeating_eq hstart advances hready hfuel (Nat.lt_succ_self _)

end Progress

end

/-- What a parser does in both modes, in one of them. -/
theorem Reads.keeps {limit : Nat} {origin c : Cursor} {p : Parser α} {post : α → Cursor → Prop}
    (h : Reads limit origin c p post) (mode : Mode) : (p ⟨limit, mode⟩ c).Keeps post := by
  cases mode with
  | strict => exact h.sound_strict.keeps
  | tolerant => exact h.sound_tolerant.keeps

end Parser

/-! ### Scanning loops -/

namespace Scan

/-- How a turn of a scanning loop ends. -/
inductive Turn (State : Type) where
  /-- It was the last one and took some characters. -/
  | stop (count : Nat)
  /-- It took some characters, and another one follows in some state. -/
  | next (count : Nat) (state : State)

/-- What a loop takes from a turn on. -/
def Turn.total (loop : State → List Char → Nat) (chars : List Char) : Turn State → Nat
  | .stop count => count
  | .next count state => count + loop state (chars.drop count)

/-- What a turn takes is there, and a turn that is not the last takes at least one character. -/
def Turn.Advances (chars : List Char) : Turn State → Prop
  | .stop count => count ≤ chars.length
  | .next count _ => 0 < count ∧ count ≤ chars.length

/-- A scanning loop. A turn takes at least one character or is the last, and it stays in the text.
So the whole loop does. -/
structure Loop (turn : State → List Char → Turn State) (loop : State → List Char → Nat) : Prop where
  /-- The loop repeats its turn. -/
  repeats : ∀ state chars, loop state chars = (turn state chars).total loop chars
  /-- A turn makes progress. -/
  advances : ∀ state chars, (turn state chars).Advances chars
  /-- The loop stays in the text. -/
  le_length : ∀ state chars, loop state chars ≤ chars.length

section

variable {turn : State → List Char → Turn State} {loop : State → List Char → Nat}
  (repeats : ∀ state chars, loop state chars = (turn state chars).total loop chars)
  (advances : ∀ state chars, (turn state chars).Advances chars)

include repeats advances

/-- By induction on the length of the text, since a turn that is not the last leaves less of it. -/
theorem le_length_of_advances (state : State) (chars : List Char) :
    loop state chars ≤ chars.length := by
  induction hlength : chars.length using Nat.strong_induction_on generalizing state chars with
  | _ length ih =>
      subst hlength
      have hturn := advances state chars
      rw [repeats]
      generalize turn state chars = outcome at hturn ⊢
      cases outcome with
      | stop count => exact hturn
      | next count state' =>
          obtain ⟨hpos, hle⟩ := hturn
          have hrest := ih (chars.drop count).length (by rw [List.length_drop]; omega) state' _ rfl
          rw [List.length_drop] at hrest
          show count + loop state' (chars.drop count) ≤ chars.length
          omega

/-- A scanning loop whose turns make progress stays in the text. -/
theorem Loop.of_advances : Loop turn loop :=
  ⟨repeats, advances, le_length_of_advances repeats advances⟩

end

end Scan

end Mcfunction
