import Mcfunction.Jsonc
import Mcfunction.Jsonc.Layout
import Mcfunction.Proofs.Json.Lexeme

/-!
# The Two Passes over JSON with Comments

The first pass takes a layout to the layout without its comments (`stripComments_chars`), the
second takes a layout without comments to the one without its trailing commas
(`stripTrailingCommas_chars`). Each pass is followed through one trivium and one spelling at a
time: between two of them it is always outside of strings and comments.

* A block comment ends at the first `*/` behind its opening mark, so the body is gone through
  character by character, and a star at its end is not taken for the closing mark.
* A comma is trailing if a closing bracket is the first thing behind it that is no blank, and
  what the first pass leaves of comments are blanks.
-/

namespace Mcfunction.Jsonc

open Json (Spelling Lexeme)
open Json.Lexeme (Enclosed Shape isBare isBlank)

variable {tail : List Char}

/-! ### Comments -/

theorem stripComments_code {c : Char} (h : c ≠ '/') : stripComments .code (c :: tail) =
    c :: stripComments (if c = '"' then .string else .code) tail := by
  rw [stripComments]
  · rintro chars rfl
    exact absurd rfl h
  · rintro chars rfl
    exact absurd rfl h

theorem stripComments_inString {c : Char} (h : c ≠ '\\') : stripComments .string (c :: tail) =
    c :: stripComments (if c = '"' then .code else .string) tail := by
  rw [stripComments]
  rintro d chars rfl
  exact absurd rfl h

theorem stripComments_inLine (c : Char) : stripComments .lineComment (c :: tail) =
    if c = '\n' then c :: stripComments .code tail else stripComments .lineComment tail := by
  rw [stripComments]

theorem stripComments_inBlock {c : Char} (h : ∀ chars, c :: tail ≠ '*' :: '/' :: chars) :
    stripComments .blockComment (c :: tail) =
      if c = '\n' then c :: stripComments .blockComment tail
      else stripComments .blockComment tail := by
  rw [stripComments]
  rintro chars rfl rfl
  exact h chars rfl

/-- A line comment leaves its line break. -/
theorem stripComments_line {body : List Char} (h : '\n' ∉ body) :
    stripComments .lineComment (body ++ '\n' :: tail) = '\n' :: stripComments .code tail := by
  induction body with
  | nil => rfl
  | cons c body ih =>
    simp only [List.mem_cons, not_or] at h
    rw [List.cons_append, stripComments_inLine, if_neg (Ne.symm h.1), ih h.2]

/-- A line comment that the end of the text ends leaves nothing. -/
theorem stripComments_openLine {body : List Char} (h : '\n' ∉ body) :
    stripComments .lineComment body = [] := by
  induction body with
  | nil => rfl
  | cons c body ih =>
    simp only [List.mem_cons, not_or] at h
    rw [stripComments_inLine, if_neg (Ne.symm h.1), ih h.2]

/-- A block comment leaves its line breaks. -/
theorem stripComments_block {body : List Char} (h : ¬ ['*', '/'] <:+: body) :
    stripComments .blockComment (body ++ '*' :: '/' :: tail) =
      List.replicate (body.count '\n') '\n' ++ stripComments .code tail := by
  induction body with
  | nil => rfl
  | cons c body ih =>
    have hbody : ¬ ['*', '/'] <:+: body := fun hin =>
      h (hin.trans (List.suffix_cons c body).isInfix)
    -- the closing mark does not begin here: it would stand in the body, or begin at its last star
    have hopen : ∀ chars, c :: (body ++ '*' :: '/' :: tail) ≠ '*' :: '/' :: chars := by
      intro chars heq
      obtain ⟨rfl, heq⟩ := List.cons.inj heq
      cases body with
      | nil => simp at heq
      | cons d body =>
        obtain ⟨rfl, -⟩ : d = '/' ∧ body ++ '*' :: '/' :: tail = chars := by simpa using heq
        exact h ⟨[], body, rfl⟩
    rw [List.cons_append, stripComments_inBlock hopen]
    by_cases hc : c = '\n'
    · subst hc
      rw [if_pos rfl, ih hbody]
      simp [List.replicate_succ]
    · rw [if_neg hc, ih hbody, List.count_cons_of_ne hc]

/-- Of a blank or a comment there stays what stays in plain JSON. -/
theorem stripComments_trivium (trivium : Trivium) :
    stripComments .code (trivium.chars ++ tail) =
      trivium.plain.flatMap Trivium.chars ++ stripComments .code tail := by
  cases trivium with
  | blank c hblank =>
    have hslash : c ≠ '/' := by
      rintro rfl
      exact absurd hblank (by decide)
    have hquote : c ≠ '"' := by
      rintro rfl
      exact absurd hblank (by decide)
    simp only [Trivium.chars, Trivium.plain, List.flatMap_cons, List.flatMap_nil,
      List.cons_append, List.nil_append, List.append_nil]
    rw [stripComments_code hslash, if_neg hquote]
  | lineComment body honeLine =>
    simp only [Trivium.chars, Trivium.plain, Trivium.newline, List.flatMap_cons, List.flatMap_nil,
      List.cons_append, List.append_assoc, List.nil_append, List.append_nil]
    exact stripComments_line honeLine
  | blockComment body hunclosed =>
    simp only [Trivium.chars, Trivium.plain, List.cons_append, List.append_assoc, List.nil_append]
    refine (stripComments_block hunclosed).trans ?_
    simp [Trivium.newline, Trivium.chars, List.flatMap_replicate]

/-- In a gap only the comments go. -/
theorem stripComments_gap (gap : List Trivium) :
    stripComments .code (gap.flatMap Trivium.chars ++ tail) =
      (gap.flatMap Trivium.plain).flatMap Trivium.chars ++ stripComments .code tail := by
  induction gap with
  | nil => rfl
  | cons trivium gap ih =>
    simp only [List.flatMap_cons, List.append_assoc, List.flatMap_append]
    rw [stripComments_trivium, ih]

/-- Nothing between quotes is a comment. -/
theorem stripComments_string {body : List Char} (h : Enclosed body) :
    stripComments .string (body ++ '"' :: tail) = body ++ '"' :: stripComments .code tail := by
  induction h with
  | nil => exact stripComments_inString (by decide)
  | plain hquote hbackslash hchars ih =>
    rw [List.cons_append, stripComments_inString hbackslash, if_neg hquote, ih, List.cons_append]
  | @escape c chars hchars ih => exact congrArg ('\\' :: c :: ·) ih

/-- Bare characters stay. -/
theorem stripComments_bare {chars : List Char} (h : ∀ c ∈ chars, isBare c) :
    stripComments .code (chars ++ tail) = chars ++ stripComments .code tail := by
  induction chars with
  | nil => rfl
  | cons c chars ih =>
    have hc := h c (by simp)
    have hslash : c ≠ '/' := Lexeme.ne_of_isBare hc (by decide)
    have hquote : c ≠ '"' := Lexeme.ne_of_isBare hc (by decide)
    rw [List.cons_append, stripComments_code hslash, if_neg hquote,
      ih fun x hx => h x (by simp [hx])]
    rfl

/-- A lexeme stays as it is spelled. -/
theorem stripComments_token (token : Spelling) :
    stripComments .code (token.chars ++ tail) = token.chars ++ stripComments .code tail := by
  have hshape := token.shape
  generalize token.lexeme = lexeme at hshape
  generalize token.chars = chars at hshape ⊢
  cases hshape with
  | openArray => exact stripComments_code (by decide)
  | closeArray => exact stripComments_code (by decide)
  | openObject => exact stripComments_code (by decide)
  | closeObject => exact stripComments_code (by decide)
  | comma => exact stripComments_code (by decide)
  | colon => exact stripComments_code (by decide)
  | string hbody =>
    rw [List.cons_append, List.append_assoc, stripComments_code (by decide), if_pos rfl]
    simp [stripComments_string hbody]
  | scalar hbare => exact stripComments_bare hbare

/-- Only the comments between the pieces go. -/
theorem stripComments_pieces (pieces : List Piece) :
    stripComments .code (pieces.flatMap Piece.chars ++ tail) =
      (pieces.map Piece.plain).flatMap Piece.chars ++ stripComments .code tail := by
  induction pieces with
  | nil => rfl
  | cons piece pieces ih =>
    simp only [List.flatMap_cons, List.map_cons, Piece.chars, List.append_assoc]
    rw [stripComments_gap, stripComments_token, ih]
    rfl

/-- The first pass leaves a layout as it is, but for its comments. -/
theorem stripComments_chars (layout : Layout) :
    stripComments .code layout.chars =
      (Layout.mk (layout.pieces.map Piece.plain)
        (layout.last.flatMap Trivium.plain) none).chars := by
  have hcomment : stripComments .code ((layout.comment.map OpenComment.chars).getD []) = [] := by
    cases layout.comment with
    | none => rfl
    | some comment =>
      simp only [Option.map_some, Option.getD_some, OpenComment.chars]
      exact stripComments_openLine comment.oneLine
  simp only [Layout.chars, List.append_assoc]
  rw [stripComments_pieces, stripComments_gap, hcomment]
  rfl

/-! ### Trailing commas -/

theorem stripTrailingCommas_outside (c : Char) : stripTrailingCommas false (c :: tail) =
    if c = ',' && closesNext tail then stripTrailingCommas false tail
    else c :: stripTrailingCommas (c == '"') tail := by
  rw [stripTrailingCommas]

theorem stripTrailingCommas_inString {c : Char} (h : c ≠ '\\') :
    stripTrailingCommas true (c :: tail) = c :: stripTrailingCommas (c != '"') tail := by
  rw [stripTrailingCommas]
  rintro d chars rfl
  exact absurd rfl h

theorem stripTrailingCommas_code {c : Char} (h : c ≠ ',') : stripTrailingCommas false (c :: tail) =
    c :: stripTrailingCommas (c == '"') tail := by
  rw [stripTrailingCommas_outside]
  simp [h]

/-- Nothing between quotes is a trailing comma. -/
theorem stripTrailingCommas_string {body : List Char} (h : Enclosed body) :
    stripTrailingCommas true (body ++ '"' :: tail) =
      body ++ '"' :: stripTrailingCommas false tail := by
  induction h with
  | nil => exact stripTrailingCommas_inString (by decide)
  | plain hquote hbackslash hchars ih =>
    rw [List.cons_append, stripTrailingCommas_inString hbackslash,
      show (_ != '"') = true by simpa using hquote, ih]
    rfl
  | @escape c chars hchars ih => exact congrArg ('\\' :: c :: ·) ih

/-- A text without commas and quotes stays. -/
theorem stripTrailingCommas_bare {chars : List Char}
    (h : ∀ c ∈ chars, c ≠ ',' ∧ c ≠ '"') :
    stripTrailingCommas false (chars ++ tail) = chars ++ stripTrailingCommas false tail := by
  induction chars with
  | nil => rfl
  | cons c chars ih =>
    obtain ⟨hcomma, hquote⟩ := h c (by simp)
    have hfalse : (c == '"') = false := by simpa using hquote
    rw [List.cons_append, stripTrailingCommas_code hcomma, hfalse,
      ih fun x hx => h x (by simp [hx])]
    rfl

/-- A lexeme stays as it is spelled, unless it is a comma. -/
theorem stripTrailingCommas_token {token : Spelling} (h : token.lexeme.isComma = false) :
    stripTrailingCommas false (token.chars ++ tail) =
      token.chars ++ stripTrailingCommas false tail := by
  have hshape := token.shape
  generalize token.lexeme = lexeme at hshape h
  generalize token.chars = chars at hshape ⊢
  cases hshape with
  | openArray => exact stripTrailingCommas_code (by decide)
  | closeArray => exact stripTrailingCommas_code (by decide)
  | openObject => exact stripTrailingCommas_code (by decide)
  | closeObject => exact stripTrailingCommas_code (by decide)
  | comma => simp [Lexeme.isComma] at h
  | colon => exact stripTrailingCommas_code (by decide)
  | string hbody =>
    rw [List.cons_append, List.append_assoc, stripTrailingCommas_code (by decide)]
    simp [stripTrailingCommas_string hbody]
  | scalar hbare =>
    refine stripTrailingCommas_bare fun c hc => ?_
    constructor
    · exact Lexeme.ne_of_isBare (hbare c hc) (by decide)
    · exact Lexeme.ne_of_isBare (hbare c hc) (by decide)

/-- JSON whitespace is whitespace. -/
theorem isWhitespace_of_isBlank {c : Char} (h : isBlank c) : Text.isWhitespace c := by
  simp only [isBlank, Bool.or_eq_true, beq_iff_eq] at h
  obtain ((rfl | rfl) | rfl) | rfl := h <;> decide

/-- A bare character is below those from which on there are other blanks. -/
theorem lt_of_isBare {c : Char} (h : isBare c) : c < '\u2000' := by
  have hlower : c.isLower → c ≤ 'z' := fun h => of_decide_eq_true (Bool.and_eq_true_iff.mp h).2
  rw [Char.lt_def, UInt32.lt_iff_toNat_lt]
  rcases Bool.or_eq_true_iff.mp h with h | h
  · simp only [Json.isNumeral, Char.isDigit, Bool.or_eq_true, Bool.and_eq_true,
      decide_eq_true_eq, beq_iff_eq, ge_iff_le, UInt32.le_iff_toNat_le, Char.ext_iff,
      ← UInt32.toNat_inj] at h
    simp at h ⊢
    omega
  · have hle := hlower h
    rw [Char.le_def, UInt32.le_iff_toNat_le] at hle
    simp at hle ⊢
    omega

/-- Bare characters are no blanks. -/
theorem isWhitespace_of_isBare {c : Char} (h : isBare c) : Text.isWhitespace c = false := by
  have hlt := lt_of_isBare h
  unfold Text.isWhitespace
  split
  case h_15 => simp [Char.not_le.mpr hlt]
  all_goals exact absurd h (by decide)

/-- The first thing behind blanks is the spelling that stands there. -/
theorem closesNext_token {blanks : List Char} (hblanks : ∀ c ∈ blanks, isBlank c)
    (token : Spelling) :
    closesNext (blanks ++ (token.chars ++ tail)) = token.lexeme.closes := by
  have hwhite : ∀ c ∈ blanks, Text.isWhitespace c := fun c hc =>
    isWhitespace_of_isBlank (hblanks c hc)
  rw [closesNext, List.dropWhile_append_of_pos hwhite]
  have hshape := token.shape
  generalize token.lexeme = lexeme at hshape ⊢
  generalize token.chars = chars at hshape ⊢
  cases hshape with
  | openArray => rfl
  | closeArray => rfl
  | openObject => rfl
  | closeObject => rfl
  | comma => rfl
  | colon => rfl
  | string hbody => rfl
  | @scalar value c chars hbare =>
    have hc := hbare c (by simp)
    rw [List.cons_append, List.dropWhile_cons_of_neg (by simp [isWhitespace_of_isBare hc])]
    have harray : c ≠ ']' := Lexeme.ne_of_isBare hc (by decide)
    have hobject : c ≠ '}' := Lexeme.ne_of_isBare hc (by decide)
    simp [harray, hobject, Lexeme.closes]

/-- Nothing is closed by blanks alone. -/
theorem closesNext_blanks {blanks : List Char} (hblanks : ∀ c ∈ blanks, isBlank c) :
    closesNext blanks = false := by
  have hwhite : ∀ c ∈ blanks, Text.isWhitespace c := fun c hc =>
    isWhitespace_of_isBlank (hblanks c hc)
  rw [closesNext, List.dropWhile_eq_nil_iff.mpr hwhite]

/-- A comma stays, unless a closing bracket is the next thing. -/
theorem stripTrailingCommas_comma {token : Spelling} (h : token.lexeme.isComma) :
    stripTrailingCommas false (token.chars ++ tail) =
      if closesNext tail then stripTrailingCommas false tail
      else token.chars ++ stripTrailingCommas false tail := by
  have hshape := token.shape
  generalize token.lexeme = lexeme at hshape h
  generalize token.chars = chars at hshape ⊢
  cases hshape with
  | comma => exact stripTrailingCommas_outside ','
  | _ => simp [Lexeme.isComma] at h

/-- Blanks are neither commas nor quotes. -/
theorem stripTrailingCommas_blanks {blanks : List Char} (hblanks : ∀ c ∈ blanks, isBlank c) :
    stripTrailingCommas false (blanks ++ tail) = blanks ++ stripTrailingCommas false tail := by
  refine stripTrailingCommas_bare fun c hc => ?_
  have hblank := hblanks c hc
  constructor
  · rintro rfl
    exact absurd hblank (by decide)
  · rintro rfl
    exact absurd hblank (by decide)

theorem flatMap_chars_cons (piece : Piece) (pieces : List Piece) :
    (piece :: pieces).flatMap Piece.chars ++ tail =
      piece.gap.flatMap Trivium.chars ++
        (piece.token.chars ++ (pieces.flatMap Piece.chars ++ tail)) := by
  simp [Piece.chars]

/-- The second pass leaves pieces without comments as they are, but for the trailing commas. -/
theorem stripTrailingCommas_pieces {pieces : List Piece} {blanks : List Char}
    (hpieces : ∀ piece ∈ pieces, ∀ c ∈ piece.gap.flatMap Trivium.chars, isBlank c)
    (hblanks : ∀ c ∈ blanks, isBlank c) :
    stripTrailingCommas false (pieces.flatMap Piece.chars ++ blanks) =
      (Piece.joinTrailing pieces).flatMap Piece.chars ++ blanks := by
  have hend : stripTrailingCommas false blanks = blanks := by
    have hstays : stripTrailingCommas false (blanks ++ []) = _ :=
      stripTrailingCommas_blanks hblanks
    rw [List.append_nil] at hstays
    exact hstays.trans (List.append_nil blanks)
  induction pieces using Piece.joinTrailing.induct with
  | case1 => exact hend
  | case2 piece =>
    have hgap := hpieces piece (by simp)
    rw [Piece.joinTrailing, flatMap_chars_cons, stripTrailingCommas_blanks hgap,
      List.flatMap_nil, List.nil_append]
    cases hcomma : piece.token.lexeme.isComma with
    | false => rw [stripTrailingCommas_token hcomma, hend]
    | true =>
      rw [stripTrailingCommas_comma hcomma, closesNext_blanks hblanks, hend]
      rfl
  | case3 piece next pieces hdrop ih =>
    -- a comma and the bracket behind it
    obtain ⟨hcomma, hcloses⟩ := Bool.and_eq_true_iff.mp hdrop
    have hnotComma : next.token.lexeme.isComma = false := by
      cases h : next.token.lexeme <;> simp [h, Lexeme.closes, Lexeme.isComma] at hcloses ⊢
    have hgap := hpieces piece (by simp)
    have hnext := hpieces next (by simp)
    have hrest := ih fun p hp => hpieces p (by simp [hp])
    rw [Piece.joinTrailing, if_pos hdrop, flatMap_chars_cons, flatMap_chars_cons,
      stripTrailingCommas_blanks hgap, stripTrailingCommas_comma hcomma, closesNext_token hnext,
      hcloses, if_pos rfl, stripTrailingCommas_blanks hnext, stripTrailingCommas_token hnotComma,
      hrest, flatMap_chars_cons, List.flatMap_append, List.append_assoc]
  | case4 piece next pieces hkeep ih =>
    have hgap := hpieces piece (by simp)
    have hnext := hpieces next (by simp)
    have hrest := ih fun p hp => hpieces p (List.mem_cons_of_mem _ hp)
    rw [Piece.joinTrailing, if_neg hkeep, flatMap_chars_cons piece (next :: pieces),
      flatMap_chars_cons piece (Piece.joinTrailing _), stripTrailingCommas_blanks hgap]
    cases hcomma : piece.token.lexeme.isComma with
    | false => rw [stripTrailingCommas_token hcomma, hrest]
    | true =>
      have hopen : next.token.lexeme.closes = false := by simpa [hcomma] using hkeep
      have hstays : closesNext ((next :: pieces).flatMap Piece.chars ++ blanks) = false := by
        rw [flatMap_chars_cons, closesNext_token hnext, hopen]
      rw [stripTrailingCommas_comma hcomma, hstays, hrest]
      rfl

end Mcfunction.Jsonc
