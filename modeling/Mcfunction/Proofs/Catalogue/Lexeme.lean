import Mathlib.Data.Nat.Digits.Defs
import Mathlib.Tactic.IntervalCases
import Mcfunction.Catalogue.Lexeme
import Mcfunction.Proofs.Catalogue.Entry

/-!
# Reading What Was Written

The machine that cuts generated text into lexemes is run over what the generator writes.

* A run over a text is a run over its parts, one after the other (`State.run_append`), so that
  fixed parts are read by computation and only the texts of entries need an argument.
* Every escape that the generator writes is read back as the character it stands for
  (`State.run_escapeChar`): the digits of a code point are read as the number they write, and
  there are never more than six of them. So a literal is read as the text it was written for
  (`State.run_literal`), whatever this text is.
* No documentation line holds a line break (`State.run_notes`).
-/

namespace Mcfunction.Catalogue.Lexeme

open Json.Lexeme (hexValue?)

namespace State

variable {state next last : State} {front back read : List Char} {lexemes more : List Lexeme}

/-! ### Runs -/

/-- One step and the run behind it are a run. -/
theorem run_cons {c : Char} {chars : List Char} (hstep : state.step c = some (next, lexemes))
    (hrun : next.run chars = some (last, more)) :
    state.run (c :: chars) = some (last, lexemes ++ more) := by
  simp only [run, hstep, hrun, Option.bind_eq_bind, Option.bind_some, Option.pure_def]

/-- A run of several characters is one step and a run behind it. -/
theorem exists_of_run_cons {c : Char} {chars : List Char}
    (h : state.run (c :: chars) = some (last, lexemes)) :
    ∃ next complete more, state.step c = some (next, complete) ∧
      next.run chars = some (last, more) ∧ lexemes = complete ++ more := by
  rw [run, Option.bind_eq_bind, Option.bind_eq_some_iff] at h
  obtain ⟨⟨next, complete⟩, hstep, h⟩ := h
  obtain ⟨⟨last', more⟩, hrun, h⟩ := Option.bind_eq_some_iff.mp h
  obtain ⟨rfl, rfl⟩ : last' = last ∧ complete ++ more = lexemes := by simpa using h
  exact ⟨next, complete, more, hstep, hrun, rfl⟩

/-- The parts of a text are read one after the other. -/
theorem run_append (hfront : state.run front = some (next, lexemes))
    (hback : next.run back = some (last, more)) :
    state.run (front ++ back) = some (last, lexemes ++ more) := by
  induction front generalizing state lexemes with
  | nil =>
    obtain ⟨rfl, rfl⟩ : state = next ∧ [] = lexemes := by simpa [run] using hfront
    exact hback
  | cons c front ih =>
    obtain ⟨mid, complete, rest, hstep, hrun, rfl⟩ := exists_of_run_cons hfront
    rw [List.cons_append, List.append_assoc]
    exact run_cons hstep (ih hrun)

/-- Parts that end between lexemes are read independently of each other. -/
theorem run_flatMap {α : Type} {text : α → List Char} {cut : α → List Lexeme} {items : List α}
    (h : ∀ item ∈ items, run .between (text item) = some (.between, cut item)) :
    run .between (items.flatMap text) = some (.between, items.flatMap cut) := by
  induction items with
  | nil => rfl
  | cons item items ih =>
    rw [List.flatMap_cons, List.flatMap_cons]
    exact run_append (h item (by simp)) (ih fun other hother => h other (by simp [hother]))

/-! ### String literals -/

/-- A character of a literal that closes nothing. -/
theorem step_literal {mode after : Mode} {c : Char} {chars : List Char}
    (hopen : ¬ (c = '"' ∧ mode.closes)) (hread : mode.read c = some (after, chars)) :
    step (.literal mode read) c = some (.literal after (chars.reverse ++ read), []) := by
  rw [step, if_neg hopen, hread]
  rfl

/-- A hexadecimal digit is read back. -/
theorem hexValue?_digitChar {digit : Nat} (h : digit < 16) :
    hexValue? (Nat.digitChar digit) = some digit := by
  interval_cases digit <;> rfl

/-- Digits are read as the number they write, as long as there are at most six. -/
theorem run_toDigits (value : Nat) (hlength : (Nat.toDigits 16 value).length ≤ 6) :
    run (.literal (.codePoint 0 0) read) (Nat.toDigits 16 value) =
      some (.literal (.codePoint (Nat.toDigits 16 value).length value) read, []) := by
  have hdigit : ∀ count sum digit, digit < 16 → count < 6 →
      run (.literal (.codePoint count sum) read) [Nat.digitChar digit] =
        some (.literal (.codePoint (count + 1) (sum * 16 + digit)) read, []) := by
    intro count sum digit hdigit hcount
    have hread : Mode.read (.codePoint count sum) (Nat.digitChar digit) =
        some (.codePoint (count + 1) (sum * 16 + digit), []) := by
      rw [Mode.read, Mode.readCodePoint, if_neg, if_neg, if_pos hcount, hexValue?_digitChar hdigit]
      · rfl
      · interval_cases digit <;> decide
      · interval_cases digit <;> decide
    exact run_cons (step_literal (by simp [Mode.closes]) hread) rfl
  induction value using Nat.strongRecOn with
  | ind value ih =>
    by_cases hsmall : value < 16
    · rw [Nat.toDigits_of_lt_base hsmall]
      have hrun := hdigit 0 0 value hsmall (by decide)
      rw [Nat.zero_mul, Nat.zero_add, Nat.zero_add] at hrun
      exact hrun
    · have hsplit : Nat.toDigits 16 value =
          Nat.toDigits 16 (value / 16) ++ [Nat.digitChar (value % 16)] :=
        Nat.toDigits_of_base_le (by decide) (by omega)
      rw [hsplit, List.length_append, List.length_singleton] at hlength ⊢
      have hfront := ih (value / 16) (by omega) (by omega)
      have hlast := hdigit (Nat.toDigits 16 (value / 16)).length (value / 16) (value % 16)
        (Nat.mod_lt value (by decide)) (by omega)
      rw [Nat.div_add_mod' value 16] at hlast
      exact run_append hfront hlast

/-- The escape of a code point is read as the character. -/
theorem run_codePointEscape (c : Char) :
    run (.literal .plain read) (Text.codePointEscape c) =
      some (.literal .plain (c :: read), []) := by
  have hlength : (Nat.toDigits 16 c.toNat).length ≤ 6 := by
    refine Nat.toDigits_length 16 c.toNat 6 (by decide) ?_
    have hvalid : c.toNat < 0xd800 ∨ 0xdfff < c.toNat ∧ c.toNat < 0x110000 := c.valid
    omega
  have hclose : step (.literal (.codePoint (Nat.toDigits 16 c.toNat).length c.toNat) read) '}' =
      some (.literal .plain (c :: read), []) := by
    have hread : Mode.read (.codePoint (Nat.toDigits 16 c.toNat).length c.toNat) '}' =
        some (.plain, [c]) := by
      rw [Mode.read, Mode.readCodePoint, if_pos rfl, if_pos, Char.ofNat_toNat]
      exact ⟨List.length_pos_iff.mpr Nat.toDigits_ne_nil, c.valid⟩
    exact step_literal (by simp [Mode.closes]) hread
  have hopen : run (.literal .plain read) ['\\', 'u', '{'] =
      some (.literal (.codePoint 0 0) read, []) := rfl
  have hlast : run (.literal (.codePoint (Nat.toDigits 16 c.toNat).length c.toNat) read) ['}'] =
      some (.literal .plain (c :: read), []) := run_cons hclose rfl
  exact run_append hopen (run_append (run_toDigits c.toNat hlength) hlast)

/-- What is written for a character is read as the character. -/
theorem run_escapeChar (c : Char) :
    run (.literal .plain read) (Text.escapeChar c) = some (.literal .plain (c :: read), []) := by
  unfold Text.escapeChar
  split
  · rfl
  · rfl
  · rfl
  · rfl
  · rfl
  · rfl
  · next hreturn _ _ hquote hbackslash =>
    split_ifs with hprintable
    · have hread : Mode.read .plain c = some (.plain, [c]) := by
        rw [Mode.read, Mode.readPlain, if_neg (by simpa using hbackslash),
          if_neg (by simpa using hreturn)]
      exact run_cons (step_literal (fun h => absurd h.1 (by simpa using hquote)) hread) rfl
    · exact run_codePointEscape c

/-- The escape of a text is read back in a literal. -/
theorem run_escape (chars : List Char) :
    run (.literal .plain read) (chars.flatMap Text.escapeChar) =
      some (.literal .plain (chars.reverse ++ read), []) := by
  induction chars generalizing read with
  | nil => rfl
  | cons c chars ih =>
    rw [List.flatMap_cons, List.reverse_cons, List.append_assoc]
    exact run_append (run_escapeChar c) ih

/-- The quote that closes a literal. -/
theorem run_quote :
    run (.literal .plain read) ['"'] = some (.between, [.literal (String.ofList read.reverse)]) :=
  rfl

/-- A literal between quotes is read as the text that its characters write. -/
theorem run_quoted {text : String} {chars : List Char}
    (h : run (.literal .plain []) chars = some (.literal .plain text.toList.reverse, [])) :
    run .between (['"'] ++ (chars ++ ['"'])) = some (.between, [.literal text]) := by
  have hopen : run .between ['"'] = some (.literal .plain [], []) := rfl
  have hclose : run (.literal .plain text.toList.reverse) ['"'] =
      some (.between, [.literal text]) := by
    rw [run_quote, List.reverse_reverse, String.ofList_toList]
  exact run_append hopen (run_append h hclose)

/-- A literal is read as the text it was written for. -/
theorem run_literal (text : String) :
    run .between (Catalogue.literal text).toList = some (.between, [.literal text]) := by
  have hchars : (Catalogue.literal text).toList =
      ['"'] ++ (text.toList.flatMap Text.escapeChar ++ ['"']) := by
    simp [Catalogue.literal, Text.escape]
  rw [hchars]
  refine run_quoted ?_
  rw [run_escape, List.append_nil]

/-- Characters that need no escape stand for themselves. -/
theorem run_plain {chars : List Char} (h : ∀ c ∈ chars, c ≠ '"' ∧ c ≠ '\\' ∧ c ≠ '\r') :
    run (.literal .plain read) chars = some (.literal .plain (chars.reverse ++ read), []) := by
  induction chars generalizing read with
  | nil => rfl
  | cons c chars ih =>
    obtain ⟨hquote, hbackslash, hreturn⟩ := h c (by simp)
    have hread : Mode.read .plain c = some (.plain, [c]) := by
      rw [Mode.read, Mode.readPlain, if_neg hbackslash, if_neg hreturn]
    rw [List.reverse_cons, List.append_assoc]
    exact run_cons (step_literal (fun h => hquote h.1) hread) (ih fun x hx => h x (by simp [hx]))

/-- An id is read as it stands between quotes. -/
theorem run_id {id : String} (h : isId id) :
    run .between (['"'] ++ (id.toList ++ ['"'])) = some (.between, [.literal id]) := by
  refine run_quoted ?_
  rw [run_plain, List.append_nil]
  intro c hc
  obtain ⟨hquote, hbackslash, hreturn, -⟩ := isId_plain h c hc
  exact ⟨hquote, hbackslash, hreturn⟩

/-! ### Words -/

/-- The characters of a word go on with it. -/
theorem run_word {chars : List Char} (h : ∀ c ∈ chars, isWordChar c) :
    run (.word read) chars = some (.word (chars.reverse ++ read), []) := by
  induction chars generalizing read with
  | nil => rfl
  | cons c chars ih =>
    have hstep : step (.word read) c = some (.word (c :: read), []) := by
      rw [step, if_pos (h c (by simp))]
    rw [List.reverse_cons, List.append_assoc]
    exact run_cons hstep (ih fun x hx => h x (by simp [hx]))

/-- The name of a constant is read as a word. -/
theorem run_constant {name : String} (h : isConstant name) :
    run .between name.toList = some (.word name.toList.reverse, []) := by
  obtain ⟨c, chars, hchars, hupper, hconstant⟩ := exists_of_isConstant h
  have hspace : isSpace c = false := by
    by_contra hspace
    simp only [Bool.not_eq_false, isSpace, List.mem_cons, List.not_mem_nil, or_false,
      decide_eq_true_eq] at hspace
    rcases hspace with rfl | rfl | rfl | rfl | rfl | rfl | rfl | rfl | rfl | rfl | rfl <;>
      exact absurd hupper (by decide)
  have halpha : ∀ x : Char, x.isUpper → x.isAlpha := fun x hx => Bool.or_eq_true_iff.mpr (.inl hx)
  have hstart : isWordStart c := by simp [isWordStart, halpha c hupper]
  have hword : ∀ x ∈ chars, isWordChar x := by
    intro x hx
    have hx := hconstant x hx
    simp only [isConstantChar, isWordChar, Char.isAlphanum, Bool.or_eq_true] at hx ⊢
    rcases hx with (hx | hx) | hx
    · exact .inl (.inl (halpha x hx))
    · exact .inl (.inr hx)
    · exact .inr hx
  have hstep : step .between c = some (.word [c], []) := by
    unfold step start
    rw [if_neg (by simp [hspace]), if_pos hstart]
  rw [hchars, List.reverse_cons]
  exact run_cons hstep (run_word hword)

/-! ### Documentation lines -/

/-- Characters without a line break among them. -/
def IsOneLine (chars : List Char) : Prop :=
  ∀ c ∈ chars, c ≠ '\n' ∧ c ≠ '\r'

theorem isOneLine_cons {c : Char} {chars : List Char} :
    IsOneLine (c :: chars) ↔ (c ≠ '\n' ∧ c ≠ '\r') ∧ IsOneLine chars := by
  simp [IsOneLine]

/-- The line that a text behind three slashes and a blank is read as. -/
theorem run_note {line : List Char} (hline : IsOneLine line) :
    run .between ("/// ".toList ++ line ++ ['\n']) =
      some (.between, [.note (String.ofList (' ' :: line))]) := by
  have hbody : ∀ read, run (.note read) line = some (.note (line.reverse ++ read), []) := by
    induction line with
    | nil => exact fun read => rfl
    | cons c line ih =>
      intro read
      obtain ⟨⟨hbreak, hreturn⟩, hline⟩ := isOneLine_cons.mp hline
      have hstep : step (.note read) c = some (.note (c :: read), []) := by
        rw [step, readNote, if_neg hbreak, if_neg hreturn]
      rw [List.reverse_cons, List.append_assoc]
      exact run_cons hstep (ih hline (c :: read))
  have hopen : run .between "/// ".toList = some (.note [' '], []) := by decide
  have hlast : step (.note (line.reverse ++ [' '])) '\n' =
      some (.between, [.note (String.ofList (' ' :: line))]) := by
    rw [step, readNote, if_pos rfl, noteOf, List.reverse_append, List.reverse_reverse]
    rfl
  have hclose : run (.note (line.reverse ++ [' '])) ['\n'] =
      some (.between, [.note (String.ofList (' ' :: line))]) := run_cons hlast rfl
  exact run_append (run_append hopen (hbody [' '])) hclose

/-- Lexemes of which no documentation line has a line break. -/
def NotesOneLine (lexemes : List Lexeme) : Prop :=
  ∀ line, .note line ∈ lexemes → IsOneLine line.toList

/-- What has been read of a documentation line, if any, has no line break. -/
def KeepsLine : State → Prop
  | .note read => IsOneLine read
  | .noteEnding read => IsOneLine read
  | _ => True

/-- The step is refused, or it leaves and completes no documentation line with a line break. -/
def StepKeepsLine (taken : Option (State × List Lexeme)) : Prop :=
  ∀ result, taken = some result → result.1.KeepsLine ∧ NotesOneLine result.2

theorem stepKeepsLine_none : StepKeepsLine none := by
  simp [StepKeepsLine]

theorem stepKeepsLine_some :
    StepKeepsLine (some (next, lexemes)) ↔ next.KeepsLine ∧ NotesOneLine lexemes := by
  simp [StepKeepsLine]

theorem notesOneLine_nil : NotesOneLine [] := by
  simp [NotesOneLine]

theorem notesOneLine_append :
    NotesOneLine (lexemes ++ more) ↔ NotesOneLine lexemes ∧ NotesOneLine more := by
  simp only [NotesOneLine, List.mem_append]
  exact ⟨fun h => ⟨fun line hline => h line (.inl hline), fun line hline => h line (.inr hline)⟩,
    fun h line hline => hline.elim (h.1 line) (h.2 line)⟩

theorem notesOneLine_noteOf (h : IsOneLine read) : NotesOneLine [noteOf read] := by
  intro line hmem
  obtain rfl : line = String.ofList read.reverse := by simpa [noteOf] using hmem
  simpa [IsOneLine] using h

/-- Any other lexeme is no documentation line. -/
theorem notesOneLine_singleton {lexeme : Lexeme} (h : ∀ line, lexeme ≠ .note line) :
    NotesOneLine [lexeme] := by
  intro line hmem
  exact absurd (List.mem_singleton.mp hmem).symm (h line)

/-- Reading on in a documentation line keeps it on one line. -/
theorem readNote_keepsLine (c : Char) (h : IsOneLine read) : StepKeepsLine (readNote read c) := by
  unfold readNote
  split_ifs with hbreak hreturn
  · exact stepKeepsLine_some.mpr ⟨trivial, notesOneLine_noteOf h⟩
  · exact stepKeepsLine_some.mpr ⟨h, notesOneLine_nil⟩
  · exact stepKeepsLine_some.mpr ⟨isOneLine_cons.mpr ⟨⟨hbreak, hreturn⟩, h⟩, notesOneLine_nil⟩

/-- A lexeme of one character is no documentation line. -/
theorem mark?_ne_note {c : Char} {lexeme : Lexeme} (h : mark? c = some lexeme) (line : String) :
    lexeme ≠ .note line := by
  rintro rfl
  unfold mark? at h
  split at h <;> simp at h

/-- What starts a lexeme completes no documentation line. -/
theorem start_keepsLine (c : Char) : StepKeepsLine (start c) := by
  unfold start
  split_ifs
  · exact stepKeepsLine_some.mpr ⟨trivial, notesOneLine_nil⟩
  · exact stepKeepsLine_some.mpr ⟨trivial, notesOneLine_nil⟩
  · split
    case h_5 =>
      cases hmark : mark? c with
      | none => exact stepKeepsLine_none
      | some lexeme =>
        exact stepKeepsLine_some.mpr ⟨trivial, notesOneLine_singleton (mark?_ne_note hmark)⟩
    all_goals exact stepKeepsLine_some.mpr ⟨trivial, notesOneLine_nil⟩

/-- What follows a lexeme that is no documentation line completes none. -/
theorem startAfter_keepsLine {lexeme : Lexeme} (c : Char) (h : ∀ line, lexeme ≠ .note line) :
    StepKeepsLine (startAfter lexeme c) := by
  unfold startAfter
  cases hstart : start c with
  | none => exact stepKeepsLine_none
  | some taken =>
    obtain ⟨hnext, hlexemes⟩ := start_keepsLine c taken hstart
    exact stepKeepsLine_some.mpr
      ⟨hnext, notesOneLine_append.mpr ⟨notesOneLine_singleton h, hlexemes⟩⟩

/-- One character more brings no line break into a documentation line. -/
theorem step_keepsLine (c : Char) (h : state.KeepsLine) : StepKeepsLine (state.step c) := by
  have hquiet : ∀ {next : State}, next.KeepsLine → StepKeepsLine (some (next, [])) :=
    fun hnext => stepKeepsLine_some.mpr ⟨hnext, notesOneLine_nil⟩
  have hemit : ∀ {lexeme : Lexeme}, (∀ line, lexeme ≠ .note line) →
      StepKeepsLine (some (.between, [lexeme])) :=
    fun hlexeme => stepKeepsLine_some.mpr ⟨trivial, notesOneLine_singleton hlexeme⟩
  cases state with
  | between => exact start_keepsLine c
  | word read =>
    rw [step]
    split_ifs
    · exact hquiet trivial
    · exact stepKeepsLine_none
    · exact startAfter_keepsLine c (by simp [wordOf])
  | literal mode read =>
    rw [step]
    split_ifs
    · exact hemit (by simp)
    · cases mode.read c with
      | none => exact stepKeepsLine_none
      | some taken => exact hquiet trivial
  | equals =>
    rw [step]
    split_ifs
    · exact hemit (by simp)
    · exact stepKeepsLine_none
    · exact startAfter_keepsLine c (by simp)
  | colon =>
    rw [step]
    split_ifs
    · exact hemit (by simp)
    · exact startAfter_keepsLine c (by simp)
  | slash =>
    rw [step]
    split_ifs
    · exact hquiet trivial
    · exact stepKeepsLine_none
  | slashes =>
    rw [step]
    split_ifs
    · exact hquiet trivial
    · exact stepKeepsLine_none
    · exact hquiet trivial
    · exact hquiet trivial
  | noteMark =>
    rw [step]
    split_ifs
    · exact hquiet trivial
    · exact readNote_keepsLine c (by simp [IsOneLine])
  | note read => exact readNote_keepsLine c h
  | noteEnding read =>
    rw [step]
    split_ifs
    · exact stepKeepsLine_some.mpr ⟨trivial, notesOneLine_noteOf h⟩
    · exact stepKeepsLine_none
  | comment =>
    rw [step]
    split_ifs
    · exact hquiet trivial
    · exact hquiet trivial

/-- No documentation line that a run completes or leaves has a line break. -/
theorem run_keepsLine {chars : List Char} (hstate : state.KeepsLine)
    (h : state.run chars = some (last, lexemes)) : last.KeepsLine ∧ NotesOneLine lexemes := by
  induction chars generalizing state lexemes with
  | nil =>
    obtain ⟨rfl, rfl⟩ : state = last ∧ [] = lexemes := by simpa [run] using h
    exact ⟨hstate, notesOneLine_nil⟩
  | cons c chars ih =>
    obtain ⟨next, complete, more, hstep, hrun, rfl⟩ := exists_of_run_cons h
    obtain ⟨hnext, hcomplete⟩ := step_keepsLine c hstate (next, complete) hstep
    obtain ⟨hlast, hmore⟩ := ih hnext hrun
    exact ⟨hlast, notesOneLine_append.mpr ⟨hcomplete, hmore⟩⟩

/-- At the end of the text a documentation line is one line. -/
theorem finish_keepsLine (hstate : state.KeepsLine) (h : state.finish = some lexemes) :
    NotesOneLine lexemes := by
  cases state <;> simp only [finish, Option.some.injEq, reduceCtorEq] at h
  case note read => exact h ▸ notesOneLine_noteOf hstate
  case noteMark => exact h ▸ notesOneLine_noteOf (by simp [IsOneLine])
  case word read => exact h ▸ notesOneLine_singleton (by simp [wordOf])
  case equals => exact h ▸ notesOneLine_singleton (by simp)
  case colon => exact h ▸ notesOneLine_singleton (by simp)
  all_goals exact h ▸ notesOneLine_nil

end State

/-- No documentation line of a text has a line break. -/
theorem notesOneLine_of_all? {text : String} {lexemes : List Lexeme}
    (h : all? text = some lexemes) : State.NotesOneLine lexemes := by
  rw [all?, Option.bind_eq_bind, Option.bind_eq_some_iff] at h
  obtain ⟨⟨last, complete⟩, hrun, h⟩ := h
  obtain ⟨rest, hfinish, hlexemes⟩ := Option.bind_eq_some_iff.mp h
  obtain rfl : complete ++ rest = lexemes := by simpa using hlexemes
  have hbetween : State.between.KeepsLine := trivial
  obtain ⟨hlast, hcomplete⟩ := State.run_keepsLine hbetween hrun
  exact State.notesOneLine_append.mpr ⟨hcomplete, State.finish_keepsLine hlast hfinish⟩

/-- A text that is read to the end without anything left open is cut into what was complete. -/
theorem all?_of_run {text : String} {lexemes : List Lexeme}
    (h : State.run .between text.toList = some (.between, lexemes)) :
    all? text = some lexemes := by
  rw [all?, h, Option.bind_eq_bind, Option.bind_some]
  simp [State.finish]

end Mcfunction.Catalogue.Lexeme
