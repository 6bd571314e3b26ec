import Mcfunction.Proofs.Parser.Logic

/-!
# Steady Parsers

Most parsers of small pieces look at the text alone: they do the same whatever the settings are,
and they log nothing. `Parser.Steady origin c p post` says this of `p` at `c`, and that `p` either
meets `post` or fails with an error that starts in the statement at `origin`.

## Main results

* `Parser.Steady.bind`: the rule for one parser after another.
* `Parser.Steady.reads`: what a steady parser does in both modes.
* `Parser.Still`: the steps that do not move at all.
* `Parser.Returns`: what all values that a parser gives have in common.
-/

namespace Mcfunction

variable {α β : Type}

/-- The error has a span that starts in the statement at `c`. -/
def ParseError.StartsIn (c : Cursor) (error : ParseError) : Prop :=
  ∃ a b, Within c a ∧ a ≤ b ∧ error.span = a.spanTo b

namespace ParseError.StartsIn

variable {c d : Cursor} {error : ParseError}

/-- An error in the statement at a place is an error from this place on. -/
theorem toFrom (h : error.StartsIn c) : error.From c := by
  obtain ⟨a, b, hca, hab, hspan⟩ := h
  exact ⟨a, b, hca.le, hab, hspan⟩

/-- An error in the statement at a later place is one in the statement at an earlier place. -/
theorem mono (h : error.StartsIn d) (hcd : Within c d) : error.StartsIn c := by
  obtain ⟨a, b, hda, hab, hspan⟩ := h
  exact ⟨a, b, hcd.trans hda, hab, hspan⟩

end ParseError.StartsIn

/-- A success that meets `post`, or an error in the statement at `origin`; nothing is logged. -/
inductive Outcome.Quiet (origin : Cursor) (post : α → Cursor → Prop) : Outcome α → Prop
  /-- A success. -/
  | done {value : α} {next : Cursor} :
      post value next → Outcome.Quiet origin post (.done value [] next)
  /-- A failure. -/
  | failed {error : ParseError} :
      error.StartsIn origin → Outcome.Quiet origin post (.failed error [])

namespace Parser

/-- `p` at `c` does the same under all settings and logs nothing: it meets `post` or fails in the
statement at `origin`. -/
def Steady (origin c : Cursor) (p : Parser α) (post : α → Cursor → Prop) : Prop :=
  ∃ outcome : Outcome α, outcome.Quiet origin post ∧ ∀ s, p s c = outcome

variable {origin c d : Cursor} {p : Parser α} {f : α → Parser β} {post post' : α → Cursor → Prop}

namespace Steady

/-- A success that is the same under all settings. -/
theorem of_done {value : α} (h : ∀ s, p s c = .done value [] d) (hpost : post value d) :
    Steady origin c p post :=
  ⟨_, .done hpost, h⟩

/-- A failure that is the same under all settings. -/
theorem of_failed {error : ParseError} (h : ∀ s, p s c = .failed error [])
    (herror : error.StartsIn origin) : Steady origin c p post :=
  ⟨_, .failed herror, h⟩

/-- Returning a value that meets the condition. -/
theorem pure {value : α} (h : post value c) : Steady origin c (Pure.pure value) post :=
  of_done (fun _ => pure_run value) h

/-- Failing with an error in the statement. -/
theorem fail {error : ParseError} (h : error.StartsIn origin) :
    Steady origin c (Parser.fail error) post :=
  of_failed (fun _ => rfl) h

/-- Failing at two places of the text, of which the first belongs to the statement. -/
theorem failAt {cause : Cause} {i j : Nat} {a b : Cursor} (ha : Within origin a) (hab : a ≤ b)
    (hi : i = a.offset) (hj : j = b.offset) :
    Steady origin c (Parser.failAt cause i j) post := by
  subst hi hj
  exact of_failed (fun _ => failAt_run (Cursor.offset_le_of_le hab)) ⟨a, b, ha, hab, rfl⟩

/-- A steady parser is steady for an earlier origin and a weaker condition. -/
theorem mono {origin' : Cursor} (h : Steady origin c p post) (horigin : Within origin' origin)
    (hpost : ∀ value next, post value next → post' value next) :
    Steady origin' c p post' := by
  obtain ⟨_, houtcome, hrun⟩ := h
  cases houtcome with
  | done hvalue => exact of_done hrun (hpost _ _ hvalue)
  | failed herror => exact of_failed hrun (herror.mono horigin)

/-- A parser that is steady from where it stands is so from any place before it in the statement. -/
theorem weaken (h : Steady d d p post) (horigin : Within origin d) : Steady origin d p post :=
  h.mono horigin fun _ _ h => h

/-- The rule for one parser after another. -/
theorem bind {mid : α → Cursor → Prop} {post : β → Cursor → Prop} (hp : Steady origin c p mid)
    (hf : ∀ value next, mid value next → Steady origin next (f value) post) :
    Steady origin c (p >>= f) post := by
  obtain ⟨_, houtcome, hrun⟩ := hp
  cases houtcome with
  | done hvalue =>
      obtain ⟨_, houtcome, hnext⟩ := hf _ _ hvalue
      exact ⟨_, houtcome, fun s => by rw [bind_done (hrun s), hnext]⟩
  | failed herror => exact of_failed (fun s => bind_failed (hrun s)) herror

/-- A steady parser does in both modes what it always does. -/
theorem reads {limit : Nat} (h : Steady origin c p post) : Reads limit origin c p post := by
  obtain ⟨_, houtcome, hrun⟩ := h
  cases houtcome with
  | done hvalue => exact .of_done (fun _ => hrun _) hvalue
  | failed herror => exact .of_failed (fun _ => hrun _) herror.toFrom

end Steady

/-- What a steady parser gives meets its condition. -/
theorem Steady.post_of_run {s : Settings} {value : α} {log : List Event}
    (h : Steady origin c p post) (hrun : p s c = .done value log d) : post value d := by
  obtain ⟨_, houtcome, hsame⟩ := h
  rw [hsame] at hrun
  subst hrun
  cases houtcome with
  | done hpost => exact hpost

/-- What follows a parser that is certain to succeed. -/
theorem steady_bind_iff {value : α} {post : β → Cursor → Prop}
    (h : ∀ s, p s c = .done value [] d) :
    Steady origin c (p >>= f) post ↔ Steady origin d (f value) post := by
  constructor
  · rintro ⟨outcome, houtcome, hrun⟩
    exact ⟨outcome, houtcome, fun s => by rw [← hrun s, bind_done (h s)]⟩
  · rintro ⟨outcome, houtcome, hrun⟩
    exact ⟨outcome, houtcome, fun s => by rw [bind_done (h s), hrun s]⟩

/-! ### Looking without moving -/

/-- `p` finds something out without moving, or a promise is broken; the settings do not matter. -/
def Still (p : Parser α) : Prop :=
  ∀ c, (∃ value, ∀ s, p s c = .done value [] c) ∨ ∃ fault, ∀ s, p s c = .broken fault

namespace Still

/-- Returning a value moves nothing. -/
theorem pure (value : α) : Still (Pure.pure value) :=
  fun _ => .inl ⟨value, fun _ => rfl⟩

/-- Two looks one after the other are a look. -/
theorem bind (hp : Still p) (hf : ∀ value, Still (f value)) : Still (p >>= f) := by
  intro c
  rcases hp c with ⟨value, hrun⟩ | ⟨fault, hrun⟩
  · rcases hf value c with ⟨value', hrun'⟩ | ⟨fault, hrun'⟩
    · exact .inl ⟨value', fun s => by rw [bind_done (hrun s), hrun']⟩
    · exact .inr ⟨fault, fun s => by rw [bind_done (hrun s), hrun']⟩
  · exact .inr ⟨fault, fun s => by rw [bind_run, hrun]; rfl⟩

/-- Asking for the place moves nothing. -/
theorem here : Still here :=
  fun c => .inl ⟨c, fun _ => rfl⟩

/-- Trusting a check moves nothing. -/
theorem trust (checked : Except Fault α) : Still (trust checked) := by
  intro c
  cases checked with
  | ok value => exact .inl ⟨value, fun _ => rfl⟩
  | error fault => exact .inr ⟨fault, fun _ => rfl⟩

/-- Making a span moves nothing. -/
theorem span (start stop : Nat) : Still (span start stop) :=
  .trust _

/-- Making a span up to the place moves nothing. -/
theorem spanFrom (start : Nat) : Still (spanFrom start) :=
  Still.here.bind fun _ => .span _ _

/-- Cutting out characters moves nothing. -/
theorem slice (place : Cursor) (start stop : Nat) : Still (slice place start stop) := by
  intro c
  rw [Parser.slice]
  cases place.slice? start stop with
  | some chars => exact .inl ⟨chars, fun _ => rfl⟩
  | none => exact .inr ⟨_, fun _ => rfl⟩

/-- Cutting out a text moves nothing. -/
theorem sliceText (place : Cursor) (start stop : Nat) : Still (sliceText place start stop) :=
  (Still.slice _ _ _).bind fun _ => .pure _

/-- What only looks does not fail, so a failure is that of the parser before it. -/
theorem bind_failed_iff {s : Settings} {error : ParseError} {log : List Event}
    (hf : ∀ value, Still (f value)) :
    (p >>= f) s c = .failed error log ↔ p s c = .failed error log := by
  rw [bind_run]
  cases p s c with
  | done value earlier d =>
      rcases hf value d with ⟨value', hrun⟩ | ⟨fault, hrun⟩ <;>
        simp [hrun, Outcome.andThen, Outcome.after]
  | failed error' log' => simp [Outcome.andThen]
  | broken fault => simp [Outcome.andThen]

end Still

/-! ### What a parser gives -/

/-- All values that `p` gives meet `property`. -/
def Returns (p : Parser α) (property : α → Prop) : Prop :=
  ∀ s c value log d, p s c = .done value log d → property value

namespace Returns

variable {property : α → Prop} {property' : β → Prop}

/-- A returned value that has the property. -/
theorem pure {value : α} (h : property value) : Returns (Pure.pure value) property := by
  rintro s c _ log d ⟨⟩
  exact h

/-- A property that all values have. -/
theorem of_forall (h : ∀ value, property value) : Returns p property :=
  fun _ _ value _ _ _ => h value

/-- Where nothing is given, all that is given has any property. -/
theorem fail {error : ParseError} : Returns (Parser.fail error) property := by
  rintro s c value log d ⟨⟩

/-- The rule for one parser after another. -/
theorem bind (hp : Returns p property)
    (hf : ∀ value, property value → Returns (f value) property') :
    Returns (p >>= f) property' := by
  intro s c value log d hrun
  obtain ⟨first, _, middle, _, hfirst, hrun, -⟩ := Outcome.andThen_eq_done hrun
  exact hf first (hp _ _ _ _ _ hfirst) _ _ _ _ _ hrun

/-- Nothing is known of the first value. -/
theorem andThen (hf : ∀ value, Returns (f value) property') : Returns (p >>= f) property' :=
  bind (fun _ _ _ _ _ _ => trivial) fun value (_ : True) => hf value

/-- So it is with a failure between offsets. -/
theorem failAt {cause : Cause} {start stop : Nat} :
    Returns (Parser.failAt cause start stop) property :=
  andThen fun _ => fail

end Returns

/-- What a steady parser gives meets what is known of all its values. -/
theorem Steady.returns {property : α → Prop} (hp : Steady origin c p post)
    (hreturns : Returns p property) :
    Steady origin c p fun value d => post value d ∧ property value := by
  obtain ⟨_, houtcome, hrun⟩ := hp
  cases houtcome with
  | done hvalue =>
      exact .of_done hrun ⟨hvalue, hreturns _ _ _ _ _ (hrun ⟨0, .strict⟩)⟩
  | failed herror => exact .of_failed hrun herror

end Parser

end Mcfunction
