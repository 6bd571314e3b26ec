import Mcfunction.Json.Record
import Mcfunction.Proofs.Json.Number
import Mcfunction.Proofs.Jsonc.Layout
import Mathlib.Data.List.Forall2

/-!
# JSON Values Read Back

The text of a JSON value, compact or over several lines, is a layout of the tokens of the value
with blanks between them (`rendered_compact`, `rendered_indented`), so it can be read, and what is
read has the arrays, objects, names and strings of the value (`ofText?_compact`,
`ofText?_pretty`). Only the numbers in it are what is read of their texts (`reread`).

What is read is a `Raw`. It has the value that was written as long as this does not nest too deep
(`value?_raw`) and its numbers are read back from their texts (`ReadsBack`). Integers must have 64
bits for that, and the numeral of any other number, which is read in double precision, must stand
for exactly this number.
-/

namespace Mcfunction.Json

open Jsonc (Layout Piece Trivium)

/-! ### What is read back -/

mutual

/-- Every number is read back from its text. -/
def ReadsBack : Json → Prop
  | .null => True
  | .bool _ => True
  | .integer value => fits value
  | .double value =>
    Lexeme.first? (numberText value).toList = some (.scalar (some (.double value)), [])
  | .string _ => True
  | .array items => ItemsReadBack items
  | .object members => MembersReadBack members

/-- Every number in the items of an array is read back. -/
def ItemsReadBack : List Json → Prop
  | [] => True
  | item :: items => ReadsBack item ∧ ItemsReadBack items

/-- Every number in the members of an object is read back. -/
def MembersReadBack : List (String × Json) → Prop
  | [] => True
  | (_, value) :: members => ReadsBack value ∧ MembersReadBack members

end

/-- What the text of a number is read as. -/
def reread (text : String) : Option Json :=
  match Lexeme.first? text.toList with
  | some (.scalar value, _) => value
  | _ => none

theorem reread_eq {text : String} {value : Option Json}
    (h : Lexeme.first? text.toList = some (.scalar value, [])) : reread text = value := by
  rw [reread, h]

mutual

/-- A value as it is written. -/
def raw : Json → Raw
  | .null => .scalar (some .null)
  | .bool value => .scalar (some (.bool value))
  | .integer value => .scalar (reread (integerText value))
  | .double value => .scalar (reread (numberText value))
  | .string text => .scalar (some (.string text))
  | .array items => .array (rawItems items)
  | .object members => .object (rawMembers members)

/-- The items of an array as they are written. -/
def rawItems : List Json → List Raw
  | [] => []
  | item :: items => raw item :: rawItems items

/-- The members of an object as they are written. -/
def rawMembers : List (String × Json) → List (Option String × Raw)
  | [] => []
  | (name, value) :: members => (some name, raw value) :: rawMembers members

end

mutual

/-- What is written has its value, unless it nests too deep or a number in it is not read back. -/
theorem value?_raw (json : Json) {depth : Nat} (hreads : json.ReadsBack) (h : json.depth ≤ depth) :
    json.raw.value? depth .all = some json := by
  cases json with
  | null => rfl
  | bool value => rfl
  | integer value => rw [raw, Raw.value?, reread_eq (first?_integerText hreads)]
  | double value => rw [raw, Raw.value?, reread_eq hreads]
  | string text => rfl
  | array items =>
    obtain ⟨depth, rfl⟩ := Nat.exists_eq_add_one.mpr (Nat.lt_of_lt_of_le (Nat.succ_pos _) h)
    have hitems : depthOfItems items ≤ depth := by
      rw [Json.depth] at h
      omega
    rw [raw, Raw.value?, Scope.items, itemValues?_raw items hreads hitems]
    rfl
  | object members =>
    obtain ⟨depth, rfl⟩ := Nat.exists_eq_add_one.mpr (Nat.lt_of_lt_of_le (Nat.succ_pos _) h)
    have hmembers : depthOfMembers members ≤ depth := by
      rw [Json.depth] at h
      omega
    rw [raw, Raw.value?, memberValues?_raw members hreads hmembers]
    rfl

/-- So have the items of an array. -/
theorem itemValues?_raw (items : List Json) {depth : Nat} (hreads : ItemsReadBack items)
    (h : depthOfItems items ≤ depth) : Raw.itemValues? depth [] (rawItems items) = some items := by
  cases items with
  | nil => rfl
  | cons item items =>
    rw [depthOfItems] at h
    have hitem := value?_raw item hreads.1 (show item.depth ≤ depth by omega)
    have hitems := itemValues?_raw items hreads.2 (show depthOfItems items ≤ depth by omega)
    rw [rawItems, Raw.itemValues?, List.headD_nil, List.tail_nil, hitem, hitems]
    rfl

/-- So have the members of an object. -/
theorem memberValues?_raw (members : List (String × Json)) {depth : Nat}
    (hreads : MembersReadBack members) (h : depthOfMembers members ≤ depth) :
    Raw.memberValues? depth .all (rawMembers members) = some members := by
  cases members with
  | nil => rfl
  | cons member members =>
    obtain ⟨name, value⟩ := member
    rw [depthOfMembers] at h
    have hvalue := value?_raw value hreads.1 (show value.depth ≤ depth by omega)
    have hmembers := memberValues?_raw members hreads.2
      (show depthOfMembers members ≤ depth by omega)
    simp only [rawMembers, Raw.memberValues?, Scope.member?]
    rw [hvalue, hmembers]
    rfl

end

/-! ### Tokens with blanks between them -/

/-- These characters are these tokens, with blanks before some of them. -/
def Laid (tokens : List Spelling) (chars : List Char) : Prop :=
  ∃ pieces : List Piece, pieces.map Piece.token = tokens ∧
    (∀ piece ∈ pieces, piece.gap.all Trivium.isPlain) ∧ pieces.flatMap Piece.chars = chars

namespace Laid

variable {tokens front behind : List Spelling} {chars frontChars behindChars : List Char}

theorem nil : Laid [] [] :=
  ⟨[], rfl, by simp, rfl⟩

theorem cons (token : Spelling) (h : Laid tokens chars) :
    Laid (token :: tokens) (token.chars ++ chars) := by
  obtain ⟨pieces, rfl, hplain, rfl⟩ := h
  refine ⟨⟨[], token⟩ :: pieces, rfl, ?_, by simp [Piece.chars]⟩
  intro piece hpiece
  rcases List.mem_cons.mp hpiece with rfl | hpiece
  · rfl
  · exact hplain piece hpiece

theorem append (hfront : Laid front frontChars) (hbehind : Laid behind behindChars) :
    Laid (front ++ behind) (frontChars ++ behindChars) := by
  obtain ⟨pieces, rfl, hplain, rfl⟩ := hfront
  obtain ⟨pieces', rfl, hplain', rfl⟩ := hbehind
  refine ⟨pieces ++ pieces', List.map_append, ?_, List.flatMap_append⟩
  intro piece hpiece
  rcases List.mem_append.mp hpiece with hpiece | hpiece
  · exact hplain piece hpiece
  · exact hplain' piece hpiece

/-- Blanks may stand before a token. -/
theorem blanks {blanks : List Char} (hblanks : ∀ c ∈ blanks, Lexeme.isBlank c)
    (hne : tokens ≠ []) (h : Laid tokens chars) : Laid tokens (blanks ++ chars) := by
  induction blanks with
  | nil => exact h
  | cons c blanks ih =>
    obtain ⟨pieces, rfl, hplain, hchars⟩ := ih fun x hx => hblanks x (by simp [hx])
    obtain ⟨piece, pieces, rfl⟩ : ∃ piece behind, pieces = piece :: behind :=
      List.exists_cons_of_ne_nil (by simpa using hne)
    have hc := hblanks c (by simp)
    refine ⟨{ piece with gap := .blank c hc :: piece.gap } :: pieces, rfl, ?_, ?_⟩
    · intro other hother
      rcases List.mem_cons.mp hother with rfl | hother
      · simpa [Trivium.isPlain] using hplain piece (by simp)
      · exact hplain other (by simp [hother])
    · rw [List.cons_append, ← hchars]
      simp [Piece.chars, Trivium.chars]

/-- The tokens of a value are read as the value, also with blanks behind them. -/
theorem ofText? {source : Source} {text : String} (h : Laid (source.tokens false) chars)
    {last : List Trivium} (hlast : last.all Trivium.isPlain)
    (htext : text.toList = chars ++ last.flatMap Trivium.chars) :
    Raw.ofText? text = some source.value := by
  obtain ⟨pieces, htokens, hplain, hchars⟩ := h
  have hlayout : (Layout.mk pieces last none).isPlain :=
    Layout.isPlain_iff.mpr ⟨hplain, hlast, rfl⟩
  have hread := Layout.ofText?_text hlayout htokens
  rwa [Layout.text, Layout.chars, hchars, Option.map_none, Option.getD_none, List.append_nil,
    ← htext, String.ofList_toList] at hread

end Laid

/-- These characters are the tokens of a value. -/
def Rendered (json : Json) (chars : List Char) : Prop :=
  ∃ source : Source, source.value = json.raw ∧ Laid (source.tokens false) chars

/-- The spelling of a name. -/
def Name.ofText (text : String) : Name :=
  ⟨⟨.string (some text), (stringText text).toList, first?_stringText text⟩, some text, rfl⟩

/-- These characters are the name of a member, a colon and the tokens of its value. -/
def RenderedMember (member : String × Json) (chars : List Char) : Prop :=
  ∃ source : Source, source.value = member.2.raw ∧
    Laid ((Name.ofText member.1).token :: .colon :: source.tokens false) chars

/-- A lexeme that stands for a value by itself. -/
theorem Rendered.literal {json : Json} {chars : List Char} {lexeme : Lexeme} {value : Option Json}
    (hspelled : Lexeme.first? chars = some (lexeme, [])) (hvalue : lexeme.value? = some value)
    (hraw : json.raw = .scalar value) : Rendered json chars := by
  refine ⟨.literal ⟨lexeme, chars, hspelled⟩ value hvalue, hraw.symm, ?_⟩
  have hlaid := Laid.nil.cons ⟨lexeme, chars, hspelled⟩
  rwa [List.append_nil] at hlaid

/-- The text of a number. -/
theorem Rendered.number {json : Json} {text : String} (hraw : json.raw = .scalar (reread text))
    (h : ∃ read, Lexeme.first? text.toList = some (.scalar read, [])) :
    Rendered json text.toList := by
  obtain ⟨read, hspelled⟩ := h
  exact .literal hspelled rfl (hraw.trans (congrArg Raw.scalar (reread_eq hspelled)))

theorem Rendered.member (name : String) {json : Json} {chars : List Char}
    (h : Rendered json chars) (blanks : List Char) (hblanks : ∀ c ∈ blanks, Lexeme.isBlank c) :
    RenderedMember (name, json) ((stringText name).toList ++ ':' :: (blanks ++ chars)) := by
  obtain ⟨source, hvalue, hlaid⟩ := h
  obtain ⟨token, tokens, heq, -⟩ := source.exists_tokens false
  have hne : source.tokens false ≠ [] := by simp [heq]
  exact ⟨source, hvalue, ((hlaid.blanks hblanks hne).cons .colon).cons (Name.ofText name).token⟩

/-! ### Arrays and objects -/

/-- The items of an array after the first. -/
theorem laid_items {items : List Json} {texts : List String} {blanks : List Char}
    (hblanks : ∀ c ∈ blanks, Lexeme.isBlank c)
    (h : List.Forall₂ (fun item text => Rendered item text.toList) items texts) :
    ∃ sources : List Source, Source.itemValues sources = rawItems items ∧
      Laid (Source.itemTokens false sources)
        (texts.flatMap fun text => ',' :: (blanks ++ text.toList)) := by
  induction h with
  | nil => exact ⟨[], rfl, .nil⟩
  | cons hitem hitems ih =>
    obtain ⟨source, hvalue, hlaid⟩ := hitem
    obtain ⟨sources, hvalues, hlaids⟩ := ih
    obtain ⟨token, tokens, heq, -⟩ := source.exists_tokens false
    have hne : source.tokens false ≠ [] := by simp [heq]
    refine ⟨source :: sources, ?_, ?_⟩
    · rw [Source.itemValues, rawItems, hvalue, hvalues]
    · exact ((hlaid.blanks hblanks hne).append hlaids).cons .comma

/-- The members of an object after the first. -/
theorem laid_members {members : List (String × Json)} {texts : List String} {blanks : List Char}
    (hblanks : ∀ c ∈ blanks, Lexeme.isBlank c)
    (h : List.Forall₂ (fun member text => RenderedMember member text.toList) members texts) :
    ∃ sources : List (Name × Source), Source.memberValues sources = rawMembers members ∧
      Laid (Source.memberTokens false sources)
        (texts.flatMap fun text => ',' :: (blanks ++ text.toList)) := by
  induction h with
  | nil => exact ⟨[], rfl, .nil⟩
  | @cons member text members texts hmember hmembers ih =>
    obtain ⟨source, hvalue, hlaid⟩ := hmember
    obtain ⟨sources, hvalues, hlaids⟩ := ih
    refine ⟨(Name.ofText member.1, source) :: sources, ?_, ?_⟩
    · obtain ⟨name, value⟩ := member
      rw [Source.memberValues, rawMembers, hvalue, hvalues]
      rfl
    · exact ((hlaid.blanks hblanks (by simp)).append hlaids).cons .comma

theorem toList_intercalate (separator text : String) (texts : List String) :
    (separator.intercalate (text :: texts)).toList =
      text.toList ++ texts.flatMap fun text => separator.toList ++ text.toList := by
  induction texts generalizing text with
  | nil => simp
  | cons next texts ih =>
    rw [String.intercalate_cons_cons, String.toList_append, String.toList_append, ih]
    simp

/-- Items with commas and blanks between them are an array. -/
theorem Rendered.array {items : List Json} {texts : List String} (separator : String)
    {first between last : List Char} (hseparator : separator.toList = ',' :: between)
    (hfirst : ∀ c ∈ first, Lexeme.isBlank c) (hbetween : ∀ c ∈ between, Lexeme.isBlank c)
    (hlast : ∀ c ∈ last, Lexeme.isBlank c) (hne : items ≠ [])
    (h : List.Forall₂ (fun item text => Rendered item text.toList) items texts) :
    Rendered (.array items)
      ('[' :: (first ++ (separator.intercalate texts).toList ++ (last ++ [']']))) := by
  cases h with
  | nil => exact absurd rfl hne
  | cons hitem hitems =>
    obtain ⟨source, hvalue, hlaid⟩ := hitem
    obtain ⟨sources, hvalues, hlaids⟩ := laid_items hbetween hitems
    obtain ⟨token, tokens, heq, -⟩ := source.exists_tokens false
    have hclose : Laid [.closeArray] (last ++ [']']) :=
      (Laid.nil.cons .closeArray).blanks hlast (by simp)
    have hitem := hlaid.blanks hfirst (by simp [heq])
    refine ⟨.array (source :: sources) false, ?_, ?_⟩
    · rw [Source.value, Source.itemValues, raw, rawItems, hvalue, hvalues]
    · have hall := (((hitem.append hlaids).append hclose).cons .openArray)
      simp only [Source.tokens, Bool.and_false, Source.lastComma, Bool.false_eq_true, if_false,
        List.append_nil]
      rw [toList_intercalate, hseparator]
      simp only [List.append_assoc, List.cons_append] at hall ⊢
      exact hall

/-- Members with commas and blanks between them are an object. -/
theorem Rendered.object {members : List (String × Json)} {texts : List String}
    (separator : String) {first between last : List Char}
    (hseparator : separator.toList = ',' :: between) (hfirst : ∀ c ∈ first, Lexeme.isBlank c)
    (hbetween : ∀ c ∈ between, Lexeme.isBlank c) (hlast : ∀ c ∈ last, Lexeme.isBlank c)
    (hne : members ≠ [])
    (h : List.Forall₂ (fun member text => RenderedMember member text.toList) members texts) :
    Rendered (.object members)
      ('{' :: (first ++ (separator.intercalate texts).toList ++ (last ++ ['}']))) := by
  cases h with
  | nil => exact absurd rfl hne
  | @cons member text members texts hmember hmembers =>
    obtain ⟨source, hvalue, hlaid⟩ := hmember
    obtain ⟨sources, hvalues, hlaids⟩ := laid_members hbetween hmembers
    have hclose : Laid [.closeObject] (last ++ ['}']) :=
      (Laid.nil.cons .closeObject).blanks hlast (by simp)
    have hmember := hlaid.blanks hfirst (by simp)
    refine ⟨.object ((Name.ofText member.1, source) :: sources) false, ?_, ?_⟩
    · obtain ⟨name, value⟩ := member
      rw [Source.value, Source.memberValues, raw, rawMembers, hvalue, hvalues]
      rfl
    · have hall := (((hmember.append hlaids).append hclose).cons .openObject)
      simp only [Source.tokens, Bool.and_false, Source.lastComma, Bool.false_eq_true, if_false,
        List.append_nil]
      rw [toList_intercalate, hseparator]
      simp only [List.append_assoc, List.cons_append] at hall ⊢
      exact hall

theorem Rendered.emptyArray : Rendered (.array []) ['[', ']'] :=
  ⟨.array [] false, rfl, (Laid.nil.cons .closeArray).cons .openArray⟩

theorem Rendered.emptyObject : Rendered (.object []) ['{', '}'] :=
  ⟨.object [] false, rfl, (Laid.nil.cons .closeObject).cons .openObject⟩

/-! ### Texts -/

mutual

/-- The compact text of a value is a layout of its tokens. -/
theorem rendered_compact (json : Json) : Rendered json (compact json).toList := by
  cases json with
  | null => exact .literal rfl rfl rfl
  | bool value => cases value <;> exact .literal rfl rfl rfl
  | integer value => exact .number rfl (exists_first?_integerText value)
  | double value => exact .number rfl (first?_numberText value)
  | string text => exact .literal (first?_stringText text) rfl rfl
  | array items =>
    have hitems := rendered_compactItems items
    have hnil : ∀ c ∈ ([] : List Char), Lexeme.isBlank c := by simp
    cases items with
    | nil => exact .emptyArray
    | cons item items =>
      have harray := Rendered.array "," rfl hnil hnil hnil (by simp) hitems
      simpa [compact] using harray
  | object members =>
    have hmembers := rendered_compactMembers members
    have hnil : ∀ c ∈ ([] : List Char), Lexeme.isBlank c := by simp
    cases members with
    | nil => exact .emptyObject
    | cons member members =>
      have hobject := Rendered.object "," rfl hnil hnil hnil (by simp) hmembers
      simpa [compact] using hobject

/-- So are the texts of the items of an array. -/
theorem rendered_compactItems (items : List Json) :
    List.Forall₂ (fun item text => Rendered item text.toList) items (compactItems items) := by
  cases items with
  | nil => exact .nil
  | cons item items => exact .cons (rendered_compact item) (rendered_compactItems items)

/-- So are the texts of the members of an object. -/
theorem rendered_compactMembers (members : List (String × Json)) :
    List.Forall₂ (fun member text => RenderedMember member text.toList) members
      (compactMembers members) := by
  cases members with
  | nil => exact .nil
  | cons member members =>
    obtain ⟨name, value⟩ := member
    refine .cons ?_ (rendered_compactMembers members)
    have hmember := (rendered_compact value).member name [] (by simp)
    simpa using hmember

end

theorem isBlank_newline (level : Nat) : ∀ c ∈ (newline level).toList, Lexeme.isBlank c := by
  intro c hc
  rw [newline, String.toList_ofList] at hc
  rcases List.mem_cons.mp hc with rfl | hc
  · rfl
  · rw [List.eq_of_mem_replicate hc]
    rfl

mutual

/-- The text of a value over several lines is a layout of its tokens. -/
theorem rendered_indented (json : Json) (level : Nat) :
    Rendered json (indented level json).toList := by
  cases json with
  | null => exact rendered_compact .null
  | bool value => cases value <;> exact rendered_compact (.bool _)
  | integer value => exact .number rfl (exists_first?_integerText value)
  | double value => exact .number rfl (first?_numberText value)
  | string text => exact .literal (first?_stringText text) rfl rfl
  | array items =>
    have hitems := rendered_indentedItems items (level + 1)
    cases items with
    | nil => simpa [indented, indentedItems, block] using Rendered.emptyArray
    | cons item items =>
      have harray := Rendered.array ("," ++ newline (level + 1)) (by simp)
        (isBlank_newline (level + 1)) (isBlank_newline (level + 1)) (isBlank_newline level)
        (by simp) hitems
      simpa [indented, indentedItems, block] using harray
  | object members =>
    have hmembers := rendered_indentedMembers members (level + 1)
    cases members with
    | nil => simpa [indented, indentedMembers, block] using Rendered.emptyObject
    | cons member members =>
      have hobject := Rendered.object ("," ++ newline (level + 1)) (by simp)
        (isBlank_newline (level + 1)) (isBlank_newline (level + 1)) (isBlank_newline level)
        (by simp) hmembers
      simpa [indented, indentedMembers, block] using hobject

/-- So are the texts of the items of an array. -/
theorem rendered_indentedItems (items : List Json) (level : Nat) :
    List.Forall₂ (fun item text => Rendered item text.toList) items
      (indentedItems level items) := by
  cases items with
  | nil => exact .nil
  | cons item items =>
    exact .cons (rendered_indented item level) (rendered_indentedItems items level)

/-- So are the texts of the members of an object. -/
theorem rendered_indentedMembers (members : List (String × Json)) (level : Nat) :
    List.Forall₂ (fun member text => RenderedMember member text.toList) members
      (indentedMembers level members) := by
  cases members with
  | nil => exact .nil
  | cons member members =>
    obtain ⟨name, value⟩ := member
    refine .cons ?_ (rendered_indentedMembers members level)
    have hmember := (rendered_indented value level).member name [' ']
      (by simp [Lexeme.isBlank])
    simpa using hmember

end

/-- The compact text of a value is read as it is written. -/
theorem ofText?_compact (json : Json) : Raw.ofText? json.compact = some json.raw := by
  obtain ⟨source, hvalue, hlaid⟩ := rendered_compact json
  rw [hlaid.ofText? (List.all_nil (f := Trivium.isPlain)) (by simp), hvalue]

/-- So is the text over several lines, also when more blanks follow it. -/
theorem ofText?_pretty_append (json : Json) {last : List Trivium}
    (hlast : last.all Trivium.isPlain) :
    Raw.ofText? (json.pretty ++ String.ofList (last.flatMap Trivium.chars)) = some json.raw := by
  obtain ⟨source, hvalue, hlaid⟩ := rendered_indented json 0
  rw [hlaid.ofText? hlast (by rw [String.toList_append, String.toList_ofList]; rfl), hvalue]

/-- The text over several lines is read as it is written. -/
theorem ofText?_pretty (json : Json) : Raw.ofText? json.pretty = some json.raw := by
  have hnone : ([] : List Trivium).all Trivium.isPlain := rfl
  have htext := json.ofText?_pretty_append hnone
  rwa [List.flatMap_nil, String.ofList_nil, String.append_empty] at htext

end Mcfunction.Json
