import Mcfunction.Json.Source
import Mcfunction.Proofs.Json.Numeral

/-!
# The Characters of a JSON Lexeme

A lexeme is read from the characters it takes, and from nothing behind them
(`Lexeme.first?_split`). What is behind a numeral must not go on with it. In a string
this is not plain to see: after the first half of a surrogate pair the reader looks for the
other half. But it never looks past the closing quote (`lowSurrogate?_of_quote`).

So the characters that a lexeme takes are a `Spelling`, and a spelling is read wherever it
stands (`Spelling.first?_append`). `Lexeme.Shape` says what the characters of a spelling can be.
-/

namespace Mcfunction.Json

namespace Lexeme

/-! ### Strings -/

/-- What may stand between the quotes of a string: escapes, and characters that are neither
quotes nor backslashes. -/
inductive Enclosed : List Char → Prop where
  /-- Nothing more. -/
  | nil : Enclosed []
  /-- A character that stands for itself. -/
  | plain {c : Char} {chars : List Char} (hquote : c ≠ '"') (hbackslash : c ≠ '\\')
      (hchars : Enclosed chars) : Enclosed (c :: chars)
  /-- A backslash and the character after it. -/
  | escape {c : Char} {chars : List Char} (hchars : Enclosed chars) :
      Enclosed ('\\' :: c :: chars)

/-- Characters without quotes and backslashes go on with what may stand between quotes. -/
theorem Enclosed.append {front chars : List Char} (hfront : ∀ c ∈ front, c ≠ '"' ∧ c ≠ '\\')
    (hchars : Enclosed chars) : Enclosed (front ++ chars) := by
  induction front with
  | nil => exact hchars
  | cons c front ih =>
    obtain ⟨hquote, hbackslash⟩ := hfront c (by simp)
    exact .plain hquote hbackslash (ih fun x hx => hfront x (by simp [hx]))

theorem ne_of_hexValue? {c : Char} {value : Nat} (h : hexValue? c = some value) :
    c ≠ '"' ∧ c ≠ '\\' := by
  constructor
  · rintro rfl
    have hnone : hexValue? '"' = none := by decide
    simp [hnone] at h
  · rintro rfl
    have hnone : hexValue? '\\' = none := by decide
    simp [hnone] at h

theorem codeUnit?_split {chars tail : List Char} {unit : Nat}
    (h : codeUnit? chars = some (unit, tail)) :
    ∃ front, chars = front ++ tail ∧ (∀ c ∈ front, c ≠ '"' ∧ c ≠ '\\') ∧
      ∀ behind, codeUnit? (front ++ behind) = some (unit, behind) := by
  unfold codeUnit? at h
  split at h
  · next a b c d behind =>
    split at h
    · next ha hb hc hd =>
      obtain ⟨rfl, rfl⟩ := by simpa using h
      refine ⟨[a, b, c, d], rfl, ?_, ?_⟩
      · simp only [List.mem_cons, List.not_mem_nil, or_false, forall_eq_or_imp, forall_eq]
        exact ⟨ne_of_hexValue? ha, ne_of_hexValue? hb, ne_of_hexValue? hc, ne_of_hexValue? hd⟩
      · intro behind
        simp [codeUnit?, ha, hb, hc, hd]
    · simp at h
  · simp at h

theorem lowSurrogate?_split {chars tail : List Char} {unit : Nat}
    (h : lowSurrogate? chars = some (unit, tail)) :
    ∃ front, chars = '\\' :: 'u' :: (front ++ tail) ∧ (∀ c ∈ front, c ≠ '"' ∧ c ≠ '\\') ∧
      ∀ behind, lowSurrogate? ('\\' :: 'u' :: (front ++ behind)) = some (unit, behind) := by
  unfold lowSurrogate? at h
  split at h
  · next chars =>
    cases hunit : codeUnit? chars with
    | none => simp [hunit] at h
    | some read =>
      obtain ⟨low, after⟩ := read
      simp only [hunit] at h
      split at h
      · next hrange =>
        obtain ⟨rfl, rfl⟩ := by simpa using h
        obtain ⟨front, rfl, hfront, htakes⟩ := codeUnit?_split hunit
        refine ⟨front, rfl, hfront, ?_⟩
        intro behind
        simp [lowSurrogate?, htakes behind, hrange]
      · simp at h
  · simp at h

/-- Whether half of a surrogate pair follows is settled in front of the closing quote. -/
theorem lowSurrogate?_of_quote {body tail rest : List Char}
    (h : (lowSurrogate? (body ++ '"' :: tail)).isSome) :
    (lowSurrogate? (body ++ '"' :: rest)).isSome := by
  obtain ⟨⟨unit, after⟩, hread⟩ := Option.isSome_iff_exists.mp h
  obtain ⟨front, heq, hfront, htakes⟩ := lowSurrogate?_split hread
  have hquote : '"' ∉ '\\' :: 'u' :: front := by
    simp only [List.mem_cons, not_or]
    exact ⟨by decide, by decide, fun hmem => (hfront '"' hmem).1 rfl⟩
  have hprefix : ∃ more, body = '\\' :: 'u' :: front ++ more := by
    have heq : body ++ '"' :: tail = ('\\' :: 'u' :: front) ++ after := heq
    rcases List.append_eq_append_iff.mp heq with ⟨more, hmore, hafter⟩ | ⟨more, hmore, -⟩
    · cases more with
      | nil => exact ⟨[], by simpa using hmore.symm⟩
      | cons c more =>
        obtain ⟨rfl, -⟩ := by simpa using hafter
        exact absurd (by rw [hmore]; simp) hquote
    · exact ⟨more, hmore⟩
  obtain ⟨more, rfl⟩ := hprefix
  have := htakes (more ++ '"' :: rest)
  simp only [List.cons_append, List.append_assoc] at this ⊢
  simp [this]

/-- An escape is read from its own characters, unless half of a surrogate pair is behind it that
was not there before. -/
theorem unicodeEscape?_split {chars tail : List Char} {c : Option Char}
    (h : unicodeEscape? chars = some (c, tail)) :
    ∃ front, chars = front ++ tail ∧ (∀ body, Enclosed body → Enclosed (front ++ body)) ∧
      ∀ behind, ((lowSurrogate? behind).isSome → (lowSurrogate? tail).isSome) →
        unicodeEscape? (front ++ behind) = some (c, behind) := by
  unfold unicodeEscape? at h
  cases hunit : codeUnit? chars with
  | none => simp [hunit] at h
  | some read =>
    obtain ⟨unit, after⟩ := read
    obtain ⟨front, rfl, hfront, htakes⟩ := codeUnit?_split hunit
    simp only [hunit] at h
    by_cases hscalar : unit < 0xd800 ∨ 0xe000 ≤ unit
    · rw [if_pos hscalar] at h
      obtain ⟨rfl, rfl⟩ := by simpa using h
      refine ⟨front, rfl, fun body hbody => .append hfront hbody, ?_⟩
      intro behind _
      simp [unicodeEscape?, htakes behind, hscalar]
    · rw [if_neg hscalar] at h
      by_cases hlow : 0xdc00 ≤ unit
      · rw [if_pos hlow] at h
        obtain ⟨rfl, rfl⟩ := by simpa using h
        refine ⟨front, rfl, fun body hbody => .append hfront hbody, ?_⟩
        intro behind _
        simp [unicodeEscape?, htakes behind, hscalar, hlow]
      · rw [if_neg hlow] at h
        cases hpair : lowSurrogate? after with
        | some read =>
          obtain ⟨low, rest⟩ := read
          simp only [hpair] at h
          obtain ⟨rfl, rfl⟩ := by simpa using h
          obtain ⟨second, rfl, hsecond, hlowTakes⟩ := lowSurrogate?_split hpair
          refine ⟨front ++ '\\' :: 'u' :: second, by simp, ?_, ?_⟩
          · intro body hbody
            simp only [List.append_assoc, List.cons_append]
            exact .append hfront (.escape (.append hsecond hbody))
          · intro behind _
            simp only [List.append_assoc, List.cons_append, unicodeEscape?, htakes,
              if_neg hscalar, if_neg hlow, hlowTakes]
        | none =>
          simp only [hpair] at h
          obtain ⟨rfl, rfl⟩ := by simpa using h
          refine ⟨front, rfl, fun body hbody => .append hfront hbody, ?_⟩
          intro behind hbehind
          have hnone : lowSurrogate? behind = none := by
            cases hread : lowSurrogate? behind with
            | none => rfl
            | some read => simp [hread, hpair] at hbehind
          simp only [unicodeEscape?, htakes, if_neg hscalar, if_neg hlow, hnone]

theorem escape?_split {chars tail : List Char} {c : Option Char}
    (h : escape? chars = some (c, tail)) :
    ∃ front, chars = front ++ tail ∧
      (∀ body, Enclosed body → Enclosed ('\\' :: (front ++ body))) ∧
      ∀ behind, ((lowSurrogate? behind).isSome → (lowSurrogate? tail).isSome) →
        escape? (front ++ behind) = some (c, behind) := by
  cases chars with
  | nil => simp [escape?] at h
  | cons letter chars =>
    by_cases hletter : letter = 'u'
    · subst hletter
      obtain ⟨front, rfl, henclosed, htakes⟩ := unicodeEscape?_split h
      exact ⟨'u' :: front, rfl, fun body hbody => .escape (henclosed body hbody), htakes⟩
    · have hother : ∀ behind, escape? (letter :: behind) =
          (letterEscape? letter).map fun c => (some c, behind) := by
        intro behind
        simp [escape?]
      rw [hother] at h
      obtain ⟨x, hx, heq⟩ := Option.map_eq_some_iff.mp h
      obtain ⟨rfl, rfl⟩ := Prod.mk.inj heq
      refine ⟨[letter], rfl, fun body hbody => .escape hbody, ?_⟩
      intro behind _
      simp [hother, hx]

/-- A string is read from its own characters. -/
theorem stringBody?_split {read : Option (List Char)} {fuel : Nat} {chars tail : List Char}
    {text : Option String} (h : stringBody? read fuel chars = some (text, tail)) :
    ∃ body, chars = body ++ '"' :: tail ∧ Enclosed body ∧
      ∀ behind fuel', body.length < fuel' →
        stringBody? read fuel' (body ++ '"' :: behind) = some (text, behind) := by
  induction fuel generalizing read chars with
  | zero => simp [stringBody?] at h
  | succ fuel ih =>
    cases chars with
    | nil => simp [stringBody?] at h
    | cons c chars =>
      rw [stringBody?] at h
      by_cases hquote : c = '"'
      · subst hquote
        obtain ⟨rfl, rfl⟩ := by simpa using h
        refine ⟨[], rfl, .nil, ?_⟩
        intro behind fuel' hfuel
        obtain ⟨fuel', rfl⟩ := Nat.exists_eq_add_one.mpr hfuel
        simp [stringBody?]
      · rw [if_neg (by simpa using hquote)] at h
        by_cases hbackslash : c = '\\'
        · subst hbackslash
          rw [if_pos (by simp)] at h
          cases hescape : escape? chars with
          | none => simp [hescape] at h
          | some result =>
            obtain ⟨x, after⟩ := result
            simp only [hescape] at h
            obtain ⟨body, rfl, hbody, htakes⟩ := ih h
            obtain ⟨front, rfl, hfront, hescapes⟩ := escape?_split hescape
            refine ⟨'\\' :: (front ++ body), by simp, hfront body hbody, ?_⟩
            intro behind fuel' hfuel
            obtain ⟨fuel', rfl⟩ := Nat.exists_eq_add_one.mpr (Nat.zero_lt_of_lt hfuel)
            have hlength : body.length < fuel' := by
              simp only [List.length_cons, List.length_append] at hfuel
              omega
            have hread := hescapes (body ++ '"' :: behind) lowSurrogate?_of_quote
            simp only [List.cons_append, List.append_assoc] at hread ⊢
            simp [stringBody?, hread, htakes behind fuel' hlength]
        · rw [if_neg (by simpa using hbackslash)] at h
          by_cases hcontrol : c < ' '
          · simp [hcontrol] at h
          · rw [if_neg hcontrol] at h
            obtain ⟨body, rfl, hbody, htakes⟩ := ih h
            refine ⟨c :: body, rfl, .plain hquote hbackslash hbody, ?_⟩
            intro behind fuel' hfuel
            obtain ⟨fuel', rfl⟩ := Nat.exists_eq_add_one.mpr (Nat.zero_lt_of_lt hfuel)
            have hlength : body.length < fuel' := by simpa using hfuel
            simp [stringBody?, hquote, hbackslash, hcontrol, htakes behind fuel' hlength]

/-! ### Words -/

/-- Characters of numerals and fixed words. -/
def isBare (c : Char) : Bool :=
  isNumeral c || c.isLower

theorem ne_of_isBare {c x : Char} (hc : isBare c) (hx : isBare x = false) : c ≠ x := by
  rintro rfl
  exact absurd (hx.symm.trans hc) (by decide)

/-- A fixed word is read from its own characters. -/
theorem word?_split {chars rest : List Char} {lexeme : Lexeme}
    (h : word? chars = some (lexeme, rest)) :
    ∃ front value, chars = front ++ rest ∧ lexeme = .scalar value ∧ (∀ c ∈ front, isBare c) ∧
      front ≠ [] ∧ ∀ behind, word? (front ++ behind) = some (lexeme, behind) := by
  obtain ⟨⟨word, value⟩, hfind, heq⟩ := Option.map_eq_some_iff.mp h
  obtain ⟨rfl, rfl⟩ := Prod.mk.inj heq
  have hmem : (word, value) ∈ words := List.mem_of_find?_eq_some hfind
  have hprefix : word.toList <+: chars := by
    simpa using List.find?_some hfind
  obtain ⟨behind, rfl⟩ := hprefix
  refine ⟨word.toList, some value, ?_, rfl, ?_⟩
  · rw [← String.length_toList, List.drop_left]
  · simp only [words, List.mem_cons, List.not_mem_nil, or_false, Prod.mk.injEq] at hmem
    rcases hmem with ⟨rfl, rfl⟩ | ⟨rfl, rfl⟩ | ⟨rfl, rfl⟩
    · exact ⟨List.all_eq_true.mp (by decide), by decide, fun behind => rfl⟩
    · exact ⟨List.all_eq_true.mp (by decide), by decide, fun behind => rfl⟩
    · exact ⟨List.all_eq_true.mp (by decide), by decide, fun behind => rfl⟩

/-! ### Lexemes -/

/-- Whether a lexeme is a numeral or a fixed word. -/
def isScalar : Lexeme → Bool
  | .scalar _ => true
  | _ => false

/-- What the characters of a lexeme can be. -/
inductive Shape : Lexeme → List Char → Prop where
  /-- `[` -/
  | openArray : Shape .openArray ['[']
  /-- `]` -/
  | closeArray : Shape .closeArray [']']
  /-- An opening brace. -/
  | openObject : Shape .openObject ['{']
  /-- A closing brace. -/
  | closeObject : Shape .closeObject ['}']
  /-- `,` -/
  | comma : Shape .comma [',']
  /-- `:` -/
  | colon : Shape .colon [':']
  /-- A string between quotes. -/
  | string {text : Option String} {body : List Char} (hbody : Enclosed body) :
      Shape (.string text) ('"' :: (body ++ ['"']))
  /-- A numeral or a fixed word. -/
  | scalar {value : Option Json} {c : Char} {chars : List Char}
      (hbare : ∀ x ∈ c :: chars, isBare x) : Shape (.scalar value) (c :: chars)

/-- A lexeme without a mark of its own is a numeral or a fixed word. -/
theorem first?_bare {c : Char} {tail : List Char} (hc : isBare c) :
    first? (c :: tail) =
      if c == '-' || c.isDigit then
        (numeral? (c :: tail)).map fun read => (.scalar read.1, read.2)
      else word? (c :: tail) := by
  have hne : ∀ x, isBare x = false → c ≠ x := fun x => ne_of_isBare hc
  simp [first?, hne '[' (by decide), hne ']' (by decide), hne '{' (by decide),
    hne '}' (by decide), hne ',' (by decide), hne ':' (by decide), hne '"' (by decide)]

/-- A lexeme is read from its own characters. -/
theorem first?_split {chars rest : List Char} {lexeme : Lexeme}
    (h : first? chars = some (lexeme, rest)) :
    ∃ front, chars = front ++ rest ∧ Shape lexeme front ∧
      ∀ behind, (lexeme.isScalar → Ends behind) →
        first? (front ++ behind) = some (lexeme, behind) := by
  unfold first? at h
  split at h
  · simp at h
  · next c tail =>
    split at h
    · obtain ⟨rfl, rfl⟩ := by simpa using h
      exact ⟨['['], rfl, .openArray, fun behind _ => rfl⟩
    · obtain ⟨rfl, rfl⟩ := by simpa using h
      exact ⟨[']'], rfl, .closeArray, fun behind _ => rfl⟩
    · obtain ⟨rfl, rfl⟩ := by simpa using h
      exact ⟨['{'], rfl, .openObject, fun behind _ => rfl⟩
    · obtain ⟨rfl, rfl⟩ := by simpa using h
      exact ⟨['}'], rfl, .closeObject, fun behind _ => rfl⟩
    · obtain ⟨rfl, rfl⟩ := by simpa using h
      exact ⟨[','], rfl, .comma, fun behind _ => rfl⟩
    · obtain ⟨rfl, rfl⟩ := by simpa using h
      exact ⟨[':'], rfl, .colon, fun behind _ => rfl⟩
    · obtain ⟨⟨text, after⟩, hread, heq⟩ := Option.map_eq_some_iff.mp h
      obtain ⟨rfl, rfl⟩ := Prod.mk.inj heq
      obtain ⟨body, rfl, hbody, htakes⟩ := stringBody?_split hread
      refine ⟨'"' :: (body ++ ['"']), by simp, .string hbody, ?_⟩
      intro behind _
      have hread := htakes behind ((body ++ '"' :: behind).length + 1)
        (by rw [List.length_append]; omega)
      simp only [List.cons_append, List.append_assoc, List.nil_append, first?, hread,
        Option.map_some]
    · split at h
      · next hnumeral =>
        obtain ⟨⟨value, after⟩, hread, heq⟩ := Option.map_eq_some_iff.mp h
        obtain ⟨rfl, rfl⟩ := Prod.mk.inj heq
        obtain ⟨front, heq, hfront, hne, htakes⟩ := numeral?_split hread
        obtain ⟨x, front, rfl⟩ := List.exists_cons_of_ne_nil hne
        obtain ⟨rfl, rfl⟩ := List.cons.inj heq
        have hbare : ∀ y ∈ c :: front, isBare y := by
          intro y hy
          simp [isBare, hfront y hy]
        refine ⟨c :: front, rfl, .scalar hbare, ?_⟩
        intro behind hbehind
        rw [List.cons_append, first?_bare (hbare c (by simp)), if_pos hnumeral,
          ← List.cons_append, htakes behind (hbehind rfl)]
        rfl
      · next hnumeral =>
        obtain ⟨front, value, heq, rfl, hbare, hne, htakes⟩ := word?_split h
        obtain ⟨x, front, rfl⟩ := List.exists_cons_of_ne_nil hne
        obtain ⟨rfl, rfl⟩ := List.cons.inj heq
        refine ⟨c :: front, rfl, .scalar hbare, ?_⟩
        intro behind _
        rw [List.cons_append, first?_bare (hbare c (by simp)), if_neg hnumeral,
          ← List.cons_append, htakes behind]

/-- The lexeme at the front of a text has a spelling. -/
theorem exists_spelling {chars rest : List Char} {lexeme : Lexeme}
    (h : first? chars = some (lexeme, rest)) :
    ∃ token : Spelling, token.lexeme = lexeme ∧ chars = token.chars ++ rest := by
  obtain ⟨front, heq, -, htakes⟩ := first?_split h
  have hself := htakes [] fun _ => ends_nil
  rw [List.append_nil] at hself
  exact ⟨⟨lexeme, front, hself⟩, rfl, heq⟩

end Lexeme

namespace Spelling

open Lexeme

/-- What the characters of a spelling can be. -/
theorem shape (token : Spelling) : Shape token.lexeme token.chars := by
  obtain ⟨front, heq, hshape, -⟩ := first?_split token.spelled
  rw [List.append_nil] at heq
  exact heq ▸ hshape

/-- A spelling is read wherever it stands, if nothing behind it goes on with a numeral. -/
theorem first?_append (token : Spelling) {behind : List Char}
    (h : token.lexeme.isScalar → Ends behind) :
    first? (token.chars ++ behind) = some (token.lexeme, behind) := by
  obtain ⟨front, heq, -, htakes⟩ := first?_split token.spelled
  rw [List.append_nil] at heq
  rw [heq]
  exact htakes behind h

/-- The first character of a spelling. -/
theorem exists_cons (token : Spelling) :
    ∃ c chars, token.chars = c :: chars ∧ isBlank c = false ∧
      (token.lexeme.isScalar = false → goesOn c = false) := by
  have hshape := token.shape
  generalize token.lexeme = lexeme at hshape ⊢
  generalize token.chars = chars at hshape ⊢
  cases hshape with
  | openArray => exact ⟨_, _, rfl, by decide, fun _ => by decide⟩
  | closeArray => exact ⟨_, _, rfl, by decide, fun _ => by decide⟩
  | openObject => exact ⟨_, _, rfl, by decide, fun _ => by decide⟩
  | closeObject => exact ⟨_, _, rfl, by decide, fun _ => by decide⟩
  | comma => exact ⟨_, _, rfl, by decide, fun _ => by decide⟩
  | colon => exact ⟨_, _, rfl, by decide, fun _ => by decide⟩
  | string hbody => exact ⟨_, _, rfl, by decide, fun _ => by decide⟩
  | @scalar value c chars hbare =>
    have hc : isBare c := hbare c (by simp)
    have hne : ∀ x, isBare x = false → c ≠ x := fun x => ne_of_isBare hc
    refine ⟨c, chars, rfl, ?_, fun h => absurd h (by simp [isScalar])⟩
    simp [isBlank, hne ' ' (by decide), hne '\n' (by decide), hne '\t' (by decide),
      hne '\r' (by decide)]

end Spelling

end Mcfunction.Json
