import Mcfunction.Proofs.Parser.Document

/-!
# Plain Parsers

The parsers of the smallest pieces look at the text, move over it and fail, and do nothing else:
they log nothing, and whatever the settings are, they do the same. `Parser.Plain` says how they are
put together, so that what is true of the steps and goes over from two parsers to one after the
other is true of them all.

The settings matter in three places only: where an error may become a placeholder, where a line may,
and where something nests too deep.

## Main results

* `Parser.Plain.log_eq_nil`: plain parsers log nothing.
* `Parser.Plain.uniform`: they do the same under all settings.
* `plain_scalar`, `plain_key`, `plain_separator`, …: the parsers of the smallest pieces.
-/

namespace Mcfunction.Parser

variable {α β : Type}

/-- A parser made of looks, moves and failures. -/
inductive Plain : {α : Type} → Parser α → Prop
  /-- No step. -/
  | pure {α : Type} (value : α) : Plain (Pure.pure value)
  /-- A failure. -/
  | fail {α : Type} (error : ParseError) : Plain (Parser.fail error : Parser α)
  /-- A broken promise. -/
  | breakOff {α : Type} (fault : Fault) : Plain (Parser.breakOff fault : Parser α)
  /-- A look. -/
  | here : Plain here
  /-- A move. -/
  | moveTo (target : Cursor) : Plain (moveTo target)
  /-- One parser after another. -/
  | bind {α β : Type} {p : Parser α} {f : α → Parser β} :
      Plain p → (∀ value, Plain (f value)) → Plain (p >>= f)

namespace Plain

variable {p : Parser α}

/-- Plain parsers log nothing. -/
theorem log_eq_nil (h : Plain p) (s : Settings) (c : Cursor) : (p s c).log = [] := by
  induction h generalizing c with
  | pure | fail | breakOff | here | moveTo => rfl
  | @bind _ _ p f _ _ ihp ihf =>
      have hlog := ihp c
      rw [bind_run]
      cases hrun : p s c with
      | done value log next =>
          rw [hrun] at hlog
          obtain rfl : log = [] := hlog
          rw [Outcome.andThen_done, Outcome.after_nil]
          exact ihf value next
      | failed error log =>
          rw [hrun] at hlog
          exact hlog
      | broken fault => rfl

/-- Trusting a check is a look. -/
theorem trust (checked : Except Fault α) : Plain (trust checked) := by
  cases checked with
  | ok value => exact .pure value
  | error fault => exact .breakOff fault

/-- Making a span is a look. -/
theorem span (start stop : Nat) : Plain (span start stop) := .trust _

/-- Making a span up to the place is a look. -/
theorem spanFrom (start : Nat) : Plain (spanFrom start) := .bind .here fun _ => .span _ _

/-- Cutting out characters is a look. -/
theorem slice (place : Cursor) (start stop : Nat) : Plain (slice place start stop) := by
  unfold Parser.slice
  split
  · exact .pure _
  · exact .breakOff _

/-- Cutting out a text is a look. -/
theorem sliceText (place : Cursor) (start stop : Nat) : Plain (sliceText place start stop) :=
  .bind (.slice _ _ _) fun _ => .pure _

/-- Failing between offsets is a failure after a look. -/
theorem failAt (cause : Cause) (start stop : Nat) :
    Plain (Parser.failAt cause start stop : Parser α) :=
  .bind (.span _ _) fun _ => .fail _

/-- Taking characters is a look and a move. -/
theorem take (count : Nat) : Plain (take count) := by
  refine .bind .here fun start => ?_
  split
  · exact .moveTo _
  · exact .breakOff _

/-- Going to an offset is a look and a move. -/
theorem goTo (offset : Nat) : Plain (goTo offset) := by
  refine .bind .here fun start => ?_
  split
  · exact .moveTo _
  · exact .breakOff _

/-- Skipping trivia is a look and a move. -/
theorem skipTrivia : Plain skipTrivia :=
  .bind .here fun _ => .take _

/-- Asking a recognizer is a look, and a failure if it finds an error. -/
theorem scan (recognizer : List Char → Except Scan.Error α) : Plain (scan recognizer) := by
  refine .bind .here fun cursor => ?_
  split
  · exact .pure _
  · exact .fail _

end Plain

/-! ### Parsers that ignore the settings -/

section Settings

variable {p : Parser α} {f : α → Parser β}

/-- `p` does the same under all settings. -/
def Uniform (p : Parser α) : Prop :=
  ∀ s s' c, p s c = p s' c

namespace Uniform

/-- Logging is the same under all settings. -/
theorem log (event : Event) : Uniform (Parser.log event) :=
  fun _ _ _ => rfl

/-- One parser after another. -/
theorem bind (hp : Uniform p) (hf : ∀ value, Uniform (f value)) : Uniform (p >>= f) := by
  intro s s' c
  rw [bind_run, bind_run, hp s s' c]
  congr 1
  funext value next
  exact hf value s s' next

end Uniform

/-- What is made of looks, moves and failures never asks for the settings. -/
theorem Plain.uniform (h : Plain p) : Uniform p := by
  induction h with
  | pure | fail | breakOff | here | moveTo => exact fun _ _ _ => rfl
  | bind _ _ ihp ihf => exact ihp.bind ihf

end Settings

/-! ### Recovery -/

/-- Recovery is the same under all settings, although it logs something. -/
theorem uniform_recover (error : ParseError) : Uniform (recover error) := by
  refine .bind Plain.here.uniform fun start => .bind (Plain.span _ _).uniform fun _ =>
    .bind (.log _) fun _ => .bind ?_ fun _ => (Plain.pure _).uniform
  exact (Plain.goTo _).uniform

/-- So is the recovery of a statement. -/
theorem uniform_recoverStatement (error : ParseError) : Uniform (recoverStatement error) :=
  .bind Plain.here.uniform fun _ => .bind (.log _) fun _ =>
    (Plain.bind (.take _) fun _ => .bind (.span _ _) fun _ => .pure _).uniform

/-! ### Leaves -/

/-- The error for what was not expected is plain. -/
theorem plain_unexpected (wanted : Wanted) : Plain (unexpected wanted : Parser α) :=
  .bind .here fun _ => .bind (.slice _ _ _) fun _ => .failAt _ _ _

/-- Text as it stands is plain. -/
theorem plain_textRun (count : Nat) : Plain (textRun count) :=
  .bind .here fun _ => .bind (.sliceText _ _ _) fun _ => .bind (.take _) fun _ =>
    .bind (.spanFrom _) fun _ => .pure _

/-- A bare string is plain. -/
theorem plain_bareString (count : Nat) : Plain (bareString count) :=
  .bind (plain_textRun count) fun _ => .pure _

/-- A quoted string is plain. -/
theorem plain_quotedString : Plain quotedString :=
  .bind .here fun _ => .bind (.scan _) fun _ => .bind (.take _) fun _ => .bind .here fun _ =>
    .bind (.trust _) fun _ => .bind (.sliceText _ _ _) fun _ => .bind (.spanFrom _) fun _ => .pure _

/-- A number is plain. -/
theorem plain_number (count : Nat) (suffix : Option Char) : Plain (number count suffix) := by
  refine .bind .here fun _ => .bind (plain_textRun count) fun run => ?_
  dsimp only
  split
  · exact .bind (.trust _) fun _ => .bind (.slice _ _ _) fun _ => .pure _
  · exact .bind (.pure _) fun _ => .bind (.slice _ _ _) fun _ => .pure _

/-- A resource location is plain. -/
theorem plain_resourceLocation (space path : Nat) : Plain (resourceLocation space path) :=
  .bind .here fun _ => .bind (.take _) fun _ => .bind .here fun _ =>
    .bind (.sliceText _ _ _) fun _ => .bind (.sliceText _ _ _) fun _ =>
      .bind (.spanFrom _) fun _ => .pure _

/-- An interpolation is plain. -/
theorem plain_interpolation : Plain interpolation :=
  .bind .here fun _ => .bind (.scan _) fun _ => .bind (.take _) fun _ => .bind .here fun _ =>
    .bind (.trust _) fun _ => .bind (.sliceText _ _ _) fun _ => .bind (.spanFrom _) fun _ => .pure _

/-- The pieces of a text without quotes are plain. -/
theorem plain_bareFragments (inKey : Bool) (fuel : Nat) :
    Plain (bareFragments inKey fuel) := by
  induction fuel with
  | zero => exact .breakOff _
  | succ fuel ih =>
      refine .bind .here fun cursor => ?_
      split
      · exact .bind plain_interpolation fun _ => .bind ih fun _ => .pure _
      · split
        · exact .pure _
        · exact .bind (plain_textRun _) fun _ => .bind ih fun _ => .pure _

/-- The pieces of a text in quotes are plain. -/
theorem plain_quotedFragments (fuel left : Nat) : Plain (quotedFragments fuel left) := by
  induction fuel generalizing left with
  | zero => exact .breakOff _
  | succ fuel ih =>
      rw [quotedFragments]
      split
      · exact .pure _
      · refine .bind .here fun cursor => ?_
        split
        · exact .bind plain_interpolation fun _ => .bind .here fun _ =>
            .bind (ih _) fun _ => .pure _
        · exact .bind (plain_textRun _) fun _ => .bind (ih _) fun _ => .pure _

/-- Text with interpolations is plain. -/
theorem plain_interpolated (inKey : Bool) : Plain (interpolated inKey) := by
  refine .bind .here fun start => ?_
  split
  · exact .bind (.scan _) fun _ => .bind (.take _) fun _ =>
      .bind (plain_quotedFragments _ _) fun _ => .bind (.moveTo _) fun _ =>
        .bind (.spanFrom _) fun _ => .pure _
  · exact .bind (plain_bareFragments _ _) fun _ => .bind (.spanFrom _) fun _ => .pure _

/-- A part of coordinates is plain. -/
theorem plain_coordinatePartAt (start : Cursor) (range : Nat × Nat) :
    Plain (coordinatePartAt start range) :=
  .bind (.span _ _) fun _ => .bind (.slice _ _ _) fun _ => .pure _

/-- Coordinates are plain. -/
theorem plain_coordinates : Plain coordinates := by
  refine .bind .here fun start => ?_
  split
  · exact .failAt _ _ _
  · exact .bind (plain_coordinatePartAt _ _) fun _ =>
      .bind (plain_coordinatePartAt _ _) fun _ =>
        .bind (plain_coordinatePartAt _ _) fun _ =>
          .bind (.take _) fun _ => .bind (.spanFrom _) fun _ => .pure _

/-! ### Inside containers -/

/-- The error for a bracket that is not closed is plain. -/
theorem plain_unclosed (bracket : Bracket) (opener : Cursor) :
    Plain (unclosed bracket opener : Parser α) :=
  .bind .here fun _ => .failAt _ _ _

/-- The look for content behind a bracket is plain. -/
theorem plain_expectContent (bracket : Bracket) (opener : Cursor) :
    Plain (expectContent bracket opener) := by
  refine .bind .here fun start => ?_
  split
  · exact plain_unclosed bracket opener
  · exact .pure _

/-- A separator is plain. -/
theorem plain_separator (bracket : Bracket) (opener : Cursor) :
    Plain (separator bracket opener) := by
  refine .bind .skipTrivia fun _ => .bind .here fun start => ?_
  split
  · exact plain_unclosed bracket opener
  · split
    · refine .bind (.take _) fun _ => .bind .skipTrivia fun _ => .bind .here fun _ => ?_
      split
      · exact .failAt _ _ _
      · exact .bind (plain_expectContent bracket opener) fun _ => .pure _
    · split
      · exact .bind (.take _) fun _ => .pure _
      · split
        · exact plain_unclosed bracket opener
        · exact .failAt _ _ _

/-- A key is plain. -/
theorem plain_key : Plain key := by
  refine .bind .here fun start => ?_
  split
  · exact .bind (plain_interpolated true) fun _ => .pure _
  · split
    · exact .bind plain_quotedString fun _ => .pure _
    · split
      · exact .bind (plain_bareString _) fun _ => .pure _
      · exact plain_unexpected _

/-- An operator is plain. -/
theorem plain_operator : Plain operator := by
  refine .bind .here fun start => ?_
  split
  · exact .bind (.take _) fun _ => .pure _
  · exact .failAt _ _ _

/-- A value without nested values is plain. -/
theorem plain_scalar : Plain scalar := by
  refine .bind .here fun start => ?_
  dsimp only
  split
  · exact .bind (plain_resourceLocation _ _) fun _ => .pure _
  · exact .bind (plain_number _ _) fun _ => .pure _
  · refine .bind (plain_bareString _) fun word => ?_
    split
    · exact .pure _
    · exact .pure _
    · exact .pure _
  · exact plain_unexpected _

/-- The name of a segment is plain. -/
theorem plain_segmentName : Plain segmentName := by
  refine .bind .here fun start => ?_
  split
  · exact plain_key
  · exact plain_unexpected _

/-! ### Commands -/

/-- A fake player is plain. -/
theorem plain_fakePlayer : Plain fakePlayer := by
  refine .bind .here fun start => ?_
  split
  · exact .bind (.take _) fun _ => .bind .here fun _ => .bind (.sliceText _ _ _) fun _ =>
      .bind (.spanFrom _) fun _ => .pure _
  · exact plain_unexpected _

/-- The error for a missing separator is plain. -/
theorem plain_missingSeparator : Plain (missingSeparator : Parser α) :=
  .bind .here fun _ => .failAt _ _ _

/-- The name of a command is plain. -/
theorem plain_commandName : Plain commandName := by
  refine .bind .here fun start => ?_
  split
  · exact plain_textRun _
  · exact plain_unexpected _

/-- The end of a command is plain. -/
theorem plain_commandEnd (start : Nat) (arguments : List Argument) :
    Plain (commandEnd start arguments) := by
  unfold commandEnd
  split
  · exact .pure _
  · exact .bind .here fun _ => .pure _

/-- The name of a macro command is plain. -/
theorem plain_macroName : Plain macroName := by
  refine .bind .here fun start => ?_
  split
  · exact .bind plain_interpolation fun _ => .pure _
  · split
    · exact .bind plain_commandName fun _ => .pure _
    · exact plain_unexpected _

/-- A comment is plain. -/
theorem plain_comment : Plain comment :=
  .bind .here fun _ => .bind (plain_textRun _) fun _ => .bind .here fun _ =>
    .bind (.take _) fun _ => .bind .here fun _ => .bind (.slice _ _ _) fun _ =>
      .bind (.spanFrom _) fun _ => .pure _

end Mcfunction.Parser
