import Mcfunction.Jsonc.Layout
import Mcfunction.Proofs.Json.Source

/-!
# Reading Plain Layouts

A layout without comments is cut into the lexemes it is made of (`Layout.all?_text`), if each of
them may follow the one before it, and every text that can be cut into lexemes is such a layout
(`Layout.exists_of_all?`). So the tokens of a JSON value are read as this value, however they are
laid out (`Layout.ofText?_text`).
-/

namespace Mcfunction.Jsonc

open Json

variable {gap : List Trivium} {pieces : List Piece} {fuel : Nat} {tail : List Char}

/-! ### Gaps -/

/-- A gap without comments consists of blanks. -/
theorem isBlank_of_isPlain (hgap : gap.all Trivium.isPlain) :
    ∀ c ∈ gap.flatMap Trivium.chars, Lexeme.isBlank c := by
  intro c hc
  obtain ⟨trivium, hmem, hc⟩ := List.mem_flatMap.mp hc
  have hplain : trivium.isPlain := List.all_eq_true.mp hgap trivium hmem
  cases trivium with
  | blank x hblank =>
    obtain rfl : c = x := by simpa [Trivium.chars] using hc
    exact hblank
  | lineComment body => simp [Trivium.isPlain] at hplain
  | blockComment body => simp [Trivium.isPlain] at hplain

/-- Blanks are skipped. -/
theorem allFrom?_blanks (read : List Lexeme) {blanks : List Char}
    (hblanks : ∀ c ∈ blanks, Lexeme.isBlank c) (hfuel : (blanks ++ tail).length ≤ fuel) :
    ∃ fuel', tail.length ≤ fuel' ∧
      Lexeme.allFrom? read fuel (blanks ++ tail) = Lexeme.allFrom? read fuel' tail := by
  induction blanks generalizing fuel with
  | nil => exact ⟨fuel, hfuel, rfl⟩
  | cons c blanks ih =>
    obtain ⟨fuel, rfl⟩ := Nat.exists_eq_add_one.mpr (Nat.zero_lt_of_lt hfuel)
    have hlength : (blanks ++ tail).length ≤ fuel := by simpa using hfuel
    obtain ⟨fuel', htail, heq⟩ := ih (fun x hx => hblanks x (by simp [hx])) hlength
    refine ⟨fuel', htail, ?_⟩
    rw [List.cons_append, Lexeme.allFrom?, if_pos (hblanks c (by simp)), heq]

/-- A spelling is taken as its lexeme. -/
theorem allFrom?_token (read : List Lexeme) {token : Spelling}
    (htail : token.lexeme.isScalar → Ends tail)
    (hfuel : (token.chars ++ tail).length ≤ fuel) :
    ∃ fuel', tail.length ≤ fuel' ∧ Lexeme.allFrom? read fuel (token.chars ++ tail) =
      Lexeme.allFrom? (token.lexeme :: read) fuel' tail := by
  obtain ⟨c, chars, heq, hblank, -⟩ := token.exists_cons
  have hfirst := token.first?_append htail
  rw [heq] at hfuel hfirst ⊢
  obtain ⟨fuel, rfl⟩ := Nat.exists_eq_add_one.mpr (Nat.zero_lt_of_lt hfuel)
  refine ⟨fuel, ?_, ?_⟩
  · simp only [List.cons_append, List.length_cons, List.length_append] at hfuel
    omega
  · simp only [List.cons_append] at hfirst ⊢
    rw [Lexeme.allFrom?, if_neg (by simp [hblank]), hfirst]

/-! ### Cutting a layout -/

theorem ends_of_isBlank {blanks : List Char} (hblanks : ∀ c ∈ blanks, Lexeme.isBlank c)
    (htail : Ends tail) : Ends (blanks ++ tail) := by
  cases blanks with
  | nil => exact htail
  | cons c blanks =>
    refine ends_cons ?_
    have hc : Lexeme.isBlank c := hblanks c (by simp)
    simp only [Lexeme.isBlank, Bool.or_eq_true, beq_iff_eq] at hc
    obtain ((rfl | rfl) | rfl) | rfl := hc <;> decide

/-- What a layout goes on with behind a numeral does not go on with the numeral. -/
theorem ends_pieces {token : Spelling} {last : List Trivium}
    (hchain : (token :: pieces.map Piece.token).IsChain
      fun token next => token.lexeme.Follows next.lexeme)
    (hscalar : token.lexeme.isScalar) (hpieces : ∀ piece ∈ pieces, piece.gap.all Trivium.isPlain)
    (hlast : last.all Trivium.isPlain) :
    Ends (pieces.flatMap Piece.chars ++ last.flatMap Trivium.chars) := by
  cases pieces with
  | nil =>
    have := ends_of_isBlank (isBlank_of_isPlain hlast) ends_nil
    simpa using this
  | cons piece pieces =>
    rw [List.map_cons, List.isChain_cons_cons] at hchain
    have hnext : piece.token.lexeme.isScalar = false := by
      simpa [hscalar] using hchain.1.2
    obtain ⟨c, chars, heq, -, hgoesOn⟩ := piece.token.exists_cons
    rw [List.flatMap_cons, Piece.chars, List.append_assoc, List.append_assoc]
    refine ends_of_isBlank (isBlank_of_isPlain (hpieces piece (by simp))) ?_
    rw [heq, List.cons_append]
    exact ends_cons (hgoesOn hnext)

/-- The pieces of a layout are cut one by one. -/
theorem allFrom?_pieces (read : List Lexeme) {last : List Trivium}
    (hchain : (pieces.map Piece.token).IsChain fun token next => token.lexeme.Follows next.lexeme)
    (hpieces : ∀ piece ∈ pieces, piece.gap.all Trivium.isPlain) (hlast : last.all Trivium.isPlain)
    (hfuel : (pieces.flatMap Piece.chars ++ last.flatMap Trivium.chars).length ≤ fuel) :
    Lexeme.allFrom? read fuel (pieces.flatMap Piece.chars ++ last.flatMap Trivium.chars) =
      some (read.reverse ++ pieces.map fun piece => piece.token.lexeme) := by
  induction pieces generalizing fuel read with
  | nil =>
    have hblanks := isBlank_of_isPlain hlast
    have hfuel : (last.flatMap Trivium.chars ++ []).length ≤ fuel := by simpa using hfuel
    obtain ⟨fuel', -, heq⟩ := allFrom?_blanks read hblanks hfuel
    rw [List.append_nil] at heq
    rw [List.flatMap_nil, List.nil_append, heq, Lexeme.allFrom?]
    simp
  | cons piece pieces ih =>
    have htail : piece.token.lexeme.isScalar →
        Ends (pieces.flatMap Piece.chars ++ last.flatMap Trivium.chars) := fun hscalar =>
      ends_pieces hchain hscalar (fun p hp => hpieces p (by simp [hp])) hlast
    simp only [List.flatMap_cons, Piece.chars, List.append_assoc] at hfuel ⊢
    obtain ⟨fuel', hfuel', hgap⟩ :=
      allFrom?_blanks read (isBlank_of_isPlain (hpieces piece (by simp))) hfuel
    obtain ⟨fuel'', hfuel'', htoken⟩ := allFrom?_token read htail hfuel'
    rw [hgap, htoken, ih _ hchain.tail (fun p hp => hpieces p (by simp [hp])) hfuel'']
    simp

namespace Layout

variable {layout : Layout}

theorem isPlain_iff : layout.isPlain = true ↔
    (∀ piece ∈ layout.pieces, piece.gap.all Trivium.isPlain) ∧
      layout.last.all Trivium.isPlain ∧ layout.comment = none := by
  simp [isPlain, and_assoc]

theorem chars_of_isPlain (h : layout.isPlain) : layout.chars =
    layout.pieces.flatMap Piece.chars ++ layout.last.flatMap Trivium.chars := by
  obtain ⟨-, -, hcomment⟩ := isPlain_iff.mp h
  simp [chars, hcomment]

/-- A layout without comments is cut into its lexemes. -/
theorem all?_text (hplain : layout.isPlain)
    (hchain : layout.tokens.IsChain fun token next => token.lexeme.Follows next.lexeme) :
    Lexeme.all? layout.text = some (layout.tokens.map Spelling.lexeme) := by
  obtain ⟨hpieces, hlast, -⟩ := isPlain_iff.mp hplain
  have hcut := allFrom?_pieces [] hchain hpieces hlast (Nat.le_refl _)
  rw [Lexeme.all?, text, String.toList_ofList, chars_of_isPlain hplain]
  simpa [tokens, Function.comp_def] using hcut

/-- However the tokens of a value are laid out without comments, they are read as the value. -/
theorem ofText?_text {source : Source} (hplain : layout.isPlain)
    (htokens : layout.tokens = source.tokens false) :
    Raw.ofText? layout.text = some source.value := by
  have hrun := source.run?_tokens []
  rw [← htokens] at hrun
  rw [Raw.ofText?, all?_text hplain (Progress.isChain_of_run? hrun)]
  simp only [Option.bind_eq_bind, Option.bind_some, Progress.foldlM_lexemes, hrun]
  rfl

end Layout

/-! ### Texts that can be cut -/

/-- A blank before the pieces of a layout. -/
theorem exists_pieces_blank {c : Char} {last : List Trivium} (hblank : Lexeme.isBlank c)
    (hpieces : ∀ piece ∈ pieces, piece.gap.all Trivium.isPlain)
    (hlast : last.all Trivium.isPlain) :
    ∃ (pieces' : List Piece) (last' : List Trivium),
      (∀ piece ∈ pieces', piece.gap.all Trivium.isPlain) ∧
      last'.all Trivium.isPlain ∧ pieces'.map Piece.token = pieces.map Piece.token ∧
      pieces'.flatMap Piece.chars ++ last'.flatMap Trivium.chars =
        c :: (pieces.flatMap Piece.chars ++ last.flatMap Trivium.chars) := by
  cases pieces with
  | nil =>
    refine ⟨[], .blank c hblank :: last, by simp, ?_, rfl, ?_⟩
    · simp [hlast, Trivium.isPlain]
    · simp [Trivium.chars]
  | cons piece pieces =>
    refine ⟨{ piece with gap := .blank c hblank :: piece.gap } :: pieces, last, ?_, hlast, rfl, ?_⟩
    · intro p hp
      rcases List.mem_cons.mp hp with rfl | hp
      · simpa [Trivium.isPlain] using hpieces piece (by simp)
      · exact hpieces p (by simp [hp])
    · simp [Piece.chars, Trivium.chars]

/-- What is cut into lexemes consists of spellings and blanks. -/
theorem exists_pieces_of_allFrom? {read : List Lexeme} {chars : List Char} {lexemes : List Lexeme}
    (h : Lexeme.allFrom? read fuel chars = some lexemes) :
    ∃ (pieces : List Piece) (last : List Trivium),
      (∀ piece ∈ pieces, piece.gap.all Trivium.isPlain) ∧ last.all Trivium.isPlain ∧
      lexemes = read.reverse ++ (pieces.map Piece.token).map Spelling.lexeme ∧
      chars = pieces.flatMap Piece.chars ++ last.flatMap Trivium.chars := by
  induction fuel generalizing read chars with
  | zero =>
    cases chars with
    | nil =>
      obtain rfl := by simpa [Lexeme.allFrom?] using h
      exact ⟨[], [], by simp, rfl, by simp, rfl⟩
    | cons c chars => simp [Lexeme.allFrom?] at h
  | succ fuel ih =>
    cases chars with
    | nil =>
      obtain rfl := by simpa [Lexeme.allFrom?] using h
      exact ⟨[], [], by simp, rfl, by simp, rfl⟩
    | cons c chars =>
      rw [Lexeme.allFrom?] at h
      by_cases hblank : Lexeme.isBlank c
      · rw [if_pos hblank] at h
        obtain ⟨pieces, last, hpieces, hlast, rfl, rfl⟩ := ih h
        obtain ⟨pieces', last', hpieces', hlast', htokens, hchars⟩ :=
          exists_pieces_blank hblank hpieces hlast
        exact ⟨pieces', last', hpieces', hlast', by rw [htokens], hchars.symm⟩
      · rw [if_neg hblank] at h
        cases hfirst : Lexeme.first? (c :: chars) with
        | none => simp [hfirst] at h
        | some result =>
          obtain ⟨lexeme, rest⟩ := result
          simp only [hfirst] at h
          obtain ⟨token, rfl, hchars⟩ := Lexeme.exists_spelling hfirst
          obtain ⟨pieces, last, hpieces, hlast, rfl, rfl⟩ := ih h
          refine ⟨⟨[], token⟩ :: pieces, last, ?_, hlast, by simp, ?_⟩
          · intro p hp
            rcases List.mem_cons.mp hp with rfl | hp
            · rfl
            · exact hpieces p hp
          · rw [hchars]
            simp [Piece.chars]

/-- A text that can be cut into lexemes is a layout of spellings without comments. -/
theorem Layout.exists_of_all? {text : String} {lexemes : List Lexeme}
    (h : Lexeme.all? text = some lexemes) :
    ∃ layout : Layout, layout.isPlain ∧ layout.text = text ∧
      layout.tokens.map Spelling.lexeme = lexemes := by
  obtain ⟨pieces, last, hpieces, hlast, rfl, hchars⟩ := exists_pieces_of_allFrom? h
  refine ⟨⟨pieces, last, none⟩, isPlain_iff.mpr ⟨hpieces, hlast, rfl⟩, ?_, rfl⟩
  rw [Layout.text, Layout.chars]
  simp [← hchars]

end Mcfunction.Jsonc
