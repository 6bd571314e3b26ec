import Mcfunction.Proofs.Jsonc.Layout
import Mcfunction.Proofs.Jsonc.Strip

/-!
# JSON with Comments Becomes JSON

Main results:

* `strip_text`: whatever lexemes are laid out, and however, what `strip` leaves is the plain
  layout of them;
* `dropTrailing_tokens`: the tokens of a value without their trailing commas are the tokens of
  the value in JSON;
* `strip_recovers`: so `strip` takes every way to write a value in JSON with comments to a way
  to write the same value in JSON, with every lexeme spelled as before, and leaves every JSON
  text alone.
-/

namespace Mcfunction.Jsonc

open Json (Spelling Lexeme Source Name Progress Raw)

/-! ### What is left is plain -/

theorem Trivium.isPlain_plain (trivium : Trivium) : trivium.plain.all isPlain := by
  cases trivium with
  | blank c hblank => rfl
  | lineComment body honeLine => rfl
  | blockComment body hunclosed => simp [plain, newline, isPlain]

theorem isPlain_gap (gap : List Trivium) : (gap.flatMap Trivium.plain).all Trivium.isPlain := by
  rw [List.all_flatMap]
  exact List.all_eq_true.mpr fun trivium _ => trivium.isPlain_plain

/-- Joining the gaps around commas brings no comment back. -/
theorem isPlain_joinTrailing {pieces : List Piece}
    (h : ∀ piece ∈ pieces, piece.gap.all Trivium.isPlain) :
    ∀ piece ∈ Piece.joinTrailing pieces, piece.gap.all Trivium.isPlain := by
  induction pieces using Piece.joinTrailing.induct with
  | case1 => exact h
  | case2 piece => exact h
  | case3 piece next pieces hdrop ih =>
    rw [Piece.joinTrailing, if_pos hdrop]
    intro p hp
    rcases List.mem_cons.mp hp with rfl | hp
    · rw [List.all_append, h piece (by simp), h next (by simp), Bool.and_self]
    · exact ih (fun q hq => h q (by simp [hq])) p hp
  | case4 piece next pieces hkeep ih =>
    rw [Piece.joinTrailing, if_neg hkeep]
    intro p hp
    rcases List.mem_cons.mp hp with rfl | hp
    · exact h p (by simp)
    · exact ih (fun q hq => h q (List.mem_cons_of_mem _ hq)) p hp

theorem Layout.isPlain_plain (layout : Layout) : layout.plain.isPlain := by
  refine isPlain_iff.mpr ⟨isPlain_joinTrailing ?_, isPlain_gap layout.last, rfl⟩
  intro piece hpiece
  obtain ⟨piece, -, rfl⟩ := List.mem_map.mp hpiece
  exact isPlain_gap piece.gap

/-- Whatever lexemes are laid out, what is left is the plain layout of them. -/
theorem strip_text (layout : Layout) : strip layout.text = layout.plain.text := by
  have hpieces : ∀ piece ∈ layout.pieces.map Piece.plain,
      ∀ c ∈ piece.gap.flatMap Trivium.chars, Lexeme.isBlank c := by
    intro piece hpiece
    obtain ⟨piece, -, rfl⟩ := List.mem_map.mp hpiece
    exact isBlank_of_isPlain (isPlain_gap piece.gap)
  have hlast := isBlank_of_isPlain (isPlain_gap layout.last)
  rw [strip, Layout.text, String.toList_ofList, stripComments_chars, Layout.chars,
    Option.map_none, Option.getD_none, List.append_nil, stripTrailingCommas_pieces hpieces hlast,
    Layout.text, Layout.chars_of_isPlain layout.isPlain_plain]
  rfl

/-! ### The tokens that are left -/

/-- The tokens without the commas directly before a closing bracket. -/
def dropTrailing : List Spelling → List Spelling
  | [] => []
  | [token] => [token]
  | token :: next :: tokens =>
    if token.lexeme.isComma && next.lexeme.closes then next :: dropTrailing tokens
    else token :: dropTrailing (next :: tokens)

theorem map_joinTrailing (pieces : List Piece) :
    (Piece.joinTrailing pieces).map Piece.token = dropTrailing (pieces.map Piece.token) := by
  induction pieces using Piece.joinTrailing.induct with
  | case1 => rfl
  | case2 piece => rfl
  | case3 piece next pieces hdrop ih =>
    simp only [Piece.joinTrailing, List.map_cons, dropTrailing, if_pos hdrop, ih]
  | case4 piece next pieces hkeep ih =>
    simp only [Piece.joinTrailing, List.map_cons, dropTrailing, if_neg hkeep] at ih ⊢
    rw [ih]

theorem Layout.tokens_plain (layout : Layout) :
    layout.plain.tokens = dropTrailing layout.tokens := by
  rw [tokens, plain, map_joinTrailing, List.map_map]
  rfl

/-- What is no comma stays. -/
theorem dropTrailing_cons {token : Spelling} {behind : List Spelling}
    (h : token.lexeme.isComma = false) :
    dropTrailing (token :: behind) = token :: dropTrailing behind := by
  cases behind with
  | nil => rfl
  | cons next behind => simp [dropTrailing, h]

/-- A comma stays before a value. -/
theorem dropTrailing_comma (source : Source) (behind : List Spelling) :
    dropTrailing (.comma :: (source.tokens true ++ behind)) =
      .comma :: dropTrailing (source.tokens true ++ behind) := by
  obtain ⟨token, tokens, heq, hcloses, -⟩ := source.exists_tokens true
  rw [heq, List.cons_append, dropTrailing, hcloses, Bool.and_false]
  rfl

/-- A comma stays before a name. -/
theorem dropTrailing_name (name : Name) (behind : List Spelling) :
    dropTrailing (.comma :: name.token :: .colon :: behind) =
      .comma :: name.token :: .colon :: dropTrailing behind := by
  have hcomma : name.token.lexeme.isComma = false := by simp [name.isString, Lexeme.isComma]
  have hcloses : name.token.lexeme.closes = false := by simp [name.isString, Lexeme.closes]
  rw [dropTrailing, hcloses, Bool.and_false, if_neg Bool.false_ne_true, dropTrailing_cons hcomma,
    dropTrailing_cons rfl]

/-- The comma before a closing bracket goes, if it is there. -/
theorem dropTrailing_lastComma {closer : Spelling} (hcloses : closer.lexeme.closes)
    (written : Bool) (behind : List Spelling) :
    dropTrailing (Source.lastComma written ++ closer :: behind) =
      closer :: dropTrailing behind := by
  have hcomma : closer.lexeme.isComma = false := by
    cases h : closer.lexeme <;> simp [h, Lexeme.closes, Lexeme.isComma] at hcloses ⊢
  cases written with
  | false => exact dropTrailing_cons hcomma
  | true =>
    simp only [Source.lastComma, if_true, List.cons_append, List.nil_append]
    rw [dropTrailing, hcloses]
    rfl

mutual

/-- Without trailing commas, what is left of the tokens of a value are its tokens in JSON. -/
theorem dropTrailing_tokens (source : Source) (behind : List Spelling) :
    dropTrailing (source.tokens true ++ behind) = source.tokens false ++ dropTrailing behind := by
  cases source with
  | literal token value stands =>
    have hcomma : token.lexeme.isComma = false := by
      cases h : token.lexeme <;> simp [h, Lexeme.value?, Lexeme.isComma] at stands ⊢
    exact dropTrailing_cons hcomma
  | array items comma =>
    cases items with
    | nil =>
      simp only [Source.tokens, List.cons_append, List.nil_append]
      rw [dropTrailing_cons rfl, dropTrailing_cons rfl]
    | cons item items =>
      simp only [Source.tokens, List.cons_append, List.append_assoc, List.nil_append,
        Bool.true_and, Bool.false_and]
      rw [dropTrailing_cons rfl, dropTrailing_tokens item, dropTrailing_itemTokens items,
        dropTrailing_lastComma rfl]
      rfl
  | object members comma =>
    cases members with
    | nil =>
      simp only [Source.tokens, List.cons_append, List.nil_append]
      rw [dropTrailing_cons rfl, dropTrailing_cons rfl]
    | cons member members =>
      obtain ⟨name, member⟩ := member
      have hname : name.token.lexeme.isComma = false := by simp [name.isString, Lexeme.isComma]
      simp only [Source.tokens, List.cons_append, List.append_assoc, List.nil_append,
        Bool.true_and, Bool.false_and]
      rw [dropTrailing_cons rfl, dropTrailing_cons hname, dropTrailing_cons rfl,
        dropTrailing_tokens member, dropTrailing_memberTokens members, dropTrailing_lastComma rfl]
      rfl

/-- The commas between the items of an array stay. -/
theorem dropTrailing_itemTokens (items : List Source) (behind : List Spelling) :
    dropTrailing (Source.itemTokens true items ++ behind) =
      Source.itemTokens false items ++ dropTrailing behind := by
  cases items with
  | nil => rfl
  | cons item items =>
    simp only [Source.itemTokens, List.cons_append, List.append_assoc]
    rw [dropTrailing_comma, dropTrailing_tokens item, dropTrailing_itemTokens items]

/-- The commas between the members of an object stay. -/
theorem dropTrailing_memberTokens (members : List (Name × Source)) (behind : List Spelling) :
    dropTrailing (Source.memberTokens true members ++ behind) =
      Source.memberTokens false members ++ dropTrailing behind := by
  cases members with
  | nil => rfl
  | cons member members =>
    obtain ⟨name, member⟩ := member
    simp only [Source.memberTokens, List.cons_append, List.append_assoc]
    rw [dropTrailing_name, dropTrailing_tokens member, dropTrailing_memberTokens members]

end

/-! ### JSON texts -/

theorem Trivium.plain_of_isPlain {trivium : Trivium} (h : trivium.isPlain) :
    trivium.plain = [trivium] := by
  cases trivium with
  | blank c hblank => rfl
  | lineComment body honeLine => simp [isPlain] at h
  | blockComment body hunclosed => simp [isPlain] at h

theorem gap_of_isPlain {gap : List Trivium} (h : gap.all Trivium.isPlain) :
    gap.flatMap Trivium.plain = gap := by
  induction gap with
  | nil => rfl
  | cons trivium gap ih =>
    rw [List.all_cons, Bool.and_eq_true] at h
    rw [List.flatMap_cons, Trivium.plain_of_isPlain h.1, ih h.2]
    rfl

/-- Where no closing bracket follows a comma, there is nothing to join. -/
theorem joinTrailing_of_isChain {pieces : List Piece}
    (h : (pieces.map Piece.token).IsChain fun token next => token.lexeme.Follows next.lexeme) :
    Piece.joinTrailing pieces = pieces := by
  induction pieces using Piece.joinTrailing.induct with
  | case1 => rfl
  | case2 piece => rfl
  | case3 piece next pieces hdrop ih =>
    rw [List.map_cons, List.map_cons, List.isChain_cons_cons] at h
    rw [h.1.1] at hdrop
    exact absurd hdrop Bool.false_ne_true
  | case4 piece next pieces hkeep ih => rw [Piece.joinTrailing, if_neg hkeep, ih h.tail]

/-- A layout without comments and trailing commas is already plain. -/
theorem Layout.plain_eq_self {layout : Layout} (hplain : layout.isPlain)
    (hchain : layout.tokens.IsChain fun token next => token.lexeme.Follows next.lexeme) :
    layout.plain = layout := by
  obtain ⟨hpieces, hlast, hcomment⟩ := isPlain_iff.mp hplain
  have hmap : layout.pieces.map Piece.plain = layout.pieces := by
    refine (List.map_congr_left fun piece hpiece => ?_).trans (List.map_id _)
    rw [Piece.plain, gap_of_isPlain (hpieces piece hpiece)]
    rfl
  rw [plain, hmap, joinTrailing_of_isChain hchain, gap_of_isPlain hlast, ← hcomment]

/-- A JSON text stays as it is. -/
theorem strip_of_ofText? {text : String} {value : Raw} (h : Raw.ofText? text = some value) :
    strip text = text := by
  obtain ⟨lexemes, hall, hread⟩ := Option.bind_eq_some_iff.mp h
  obtain ⟨layout, hplain, rfl, rfl⟩ := Layout.exists_of_all? hall
  obtain ⟨progress, hrun, -⟩ := Option.bind_eq_some_iff.mp hread
  rw [Progress.foldlM_lexemes] at hrun
  rw [strip_text, Layout.plain_eq_self hplain (Progress.isChain_of_run? hrun)]

/-! ### The value that is left -/

/-- A way to write a value in JSON with comments becomes a way to write the value in JSON: its
tokens, spelled as before, with blanks around them. A text that is JSON already stays as it
is. -/
theorem strip_recovers :
    (∀ (source : Source) (layout : Layout), layout.tokens = source.tokens true →
      strip layout.text = layout.plain.text ∧ layout.plain.isPlain ∧
        layout.plain.tokens = source.tokens false ∧
        Raw.ofText? (strip layout.text) = some source.value) ∧
    ∀ text, (Raw.ofText? text).isSome → strip text = text := by
  constructor
  · intro source layout htokens
    have hplain : layout.plain.tokens = source.tokens false := by
      have hdrop := dropTrailing_tokens source []
      rw [List.append_nil, dropTrailing, List.append_nil] at hdrop
      rw [Layout.tokens_plain, htokens, hdrop]
    refine ⟨strip_text layout, layout.isPlain_plain, hplain, ?_⟩
    rw [strip_text, Layout.ofText?_text layout.isPlain_plain hplain]
  · intro text hsome
    obtain ⟨value, hvalue⟩ := Option.isSome_iff_exists.mp hsome
    exact strip_of_ofText? hvalue

/-- The item of the array below: a string with what looks like a comment and a trailing comma. -/
def slashed : Spelling :=
  ⟨.string (some "//,]"), "\"//,]\"".toList, by rfl⟩

/-- An array with a comma behind its last item. -/
def slashedArray : Source :=
  .array [.literal slashed (some (.string "//,]")) rfl] true

/-- The array with comments before and behind the comma, one of them open at the end. -/
def slashedLayout : Layout where
  pieces :=
    [⟨[], .openArray⟩, ⟨[.blockComment ['/', '*'] (by decide)], slashed⟩,
      ⟨[.lineComment [','] (by decide)], .comma⟩,
      ⟨[.blockComment [']', '\n'] (by decide), .blank ' ' rfl], .closeArray⟩]
  last := [.newline]
  comment := some ⟨['/'], by decide⟩

/-- The recovery at the four lines `[/*/**/"//,]"//,`, `,/*]`, `*/ ]` and `///`. -/
theorem strip_recovers_slashed :
    slashedLayout.tokens = slashedArray.tokens true ∧
      slashedLayout.text = "[/*/**/\"//,]\"//,\n,/*]\n*/ ]\n///" ∧
      strip slashedLayout.text = "[\"//,]\"\n\n ]\n" ∧
      Raw.ofText? (strip slashedLayout.text) = some (.array [.scalar (some (.string "//,]"))]) ∧
      strip "[\"//,]\"\n\n ]\n" = "[\"//,]\"\n\n ]\n" := by
  have htokens : slashedLayout.tokens = slashedArray.tokens true := rfl
  obtain ⟨hstrip, -, -, hvalue⟩ := strip_recovers.1 slashedArray slashedLayout htokens
  have hplain : slashedLayout.plain.text = "[\"//,]\"\n\n ]\n" := by decide
  refine ⟨htokens, by decide, hstrip.trans hplain, hvalue, ?_⟩
  exact strip_recovers.2 _ (by rw [← hplain, ← hstrip, hvalue]; rfl)

end Mcfunction.Jsonc
