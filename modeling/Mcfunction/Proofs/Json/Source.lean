import Mcfunction.Json.Reader
import Mcfunction.Proofs.Json.Lexeme
import Mathlib.Data.List.Chain

/-!
# Reading the Tokens of a JSON Value

The tokens of a source without trailing commas are read as its value (`Source.run?_tokens`): at
every place where a value may stand, reading its tokens leads to behind the value.

What is read has no closing bracket behind a comma and no two numerals or words side by side
(`Progress.isChain_of_run?`).
-/

namespace Mcfunction.Json

/-- One spelled lexeme after the other. -/
def Progress.run? (progress : Progress) (tokens : List Spelling) : Option Progress :=
  tokens.foldlM (fun progress token => progress.step? token.lexeme) progress

namespace Progress

theorem run?_nil (progress : Progress) : progress.run? [] = some progress :=
  rfl

theorem run?_cons (progress : Progress) (token : Spelling) (tokens : List Spelling) :
    progress.run? (token :: tokens) = (progress.step? token.lexeme).bind (run? · tokens) := by
  rw [run?, List.foldlM_cons]
  rfl

theorem run?_append (progress : Progress) (front behind : List Spelling) :
    progress.run? (front ++ behind) = (progress.run? front).bind (run? · behind) := by
  rw [run?, List.foldlM_append]
  rfl

theorem foldlM_lexemes (progress : Progress) (tokens : List Spelling) :
    (tokens.map Spelling.lexeme).foldlM step? progress = progress.run? tokens := by
  induction tokens generalizing progress with
  | nil => rfl
  | cons token tokens ih =>
    rw [run?_cons, List.map_cons, List.foldlM_cons]
    cases progress.step? token.lexeme with
    | none => rfl
    | some progress => exact ih progress

end Progress

open Progress

/-! ### Values -/

/-- A value does not begin with a closing bracket, nor with a comma. -/
theorem Source.exists_tokens (trailing : Bool) (source : Source) :
    ∃ token tokens, source.tokens trailing = token :: tokens ∧ token.lexeme.closes = false ∧
      token.lexeme.isComma = false := by
  cases source with
  | literal token value stands =>
    refine ⟨token, [], rfl, ?_, ?_⟩
    · cases h : token.lexeme <;> simp [h, Lexeme.value?, Lexeme.closes] at stands ⊢
    · cases h : token.lexeme <;> simp [h, Lexeme.value?, Lexeme.isComma] at stands ⊢
  | array items comma =>
    cases items with
    | nil => exact ⟨_, _, rfl, rfl, rfl⟩
    | cons item items => exact ⟨_, _, rfl, rfl, rfl⟩
  | object members comma =>
    cases members with
    | nil => exact ⟨_, _, rfl, rfl, rfl⟩
    | cons member members =>
      obtain ⟨name, value⟩ := member
      exact ⟨_, _, rfl, rfl, rfl⟩

/-- The first item of an array is read like any other. -/
theorem run?_atFirst {source : Source} {frames : List Frame} (behind : List Spelling) :
    (Progress.atFirst (.items [] :: frames)).run? (source.tokens false ++ behind) =
      (Progress.atValue (.items [] :: frames)).run? (source.tokens false ++ behind) := by
  obtain ⟨token, tokens, heq, hcloses, -⟩ := source.exists_tokens false
  have hstep : (Progress.atFirst (.items [] :: frames)).step? token.lexeme =
      (Progress.atValue (.items [] :: frames)).step? token.lexeme := by
    cases h : token.lexeme <;> first | rfl | simp [h, Lexeme.closes] at hcloses
  rw [heq, List.cons_append, run?_cons, run?_cons, hstep]

/-- A string, a numeral or a word is a value. -/
theorem enter?_of_value? {lexeme : Lexeme} {value : Option Json} (frames : List Frame)
    (h : lexeme.value? = some value) :
    enter? lexeme frames = some (.afterValue (.scalar value) frames) := by
  cases lexeme with
  | string text =>
    obtain rfl : text.map .string = value := by simpa [Lexeme.value?] using h
    rfl
  | scalar value' =>
    obtain rfl : value' = value := by simpa [Lexeme.value?] using h
    rfl
  | openArray => simp [Lexeme.value?] at h
  | closeArray => simp [Lexeme.value?] at h
  | openObject => simp [Lexeme.value?] at h
  | closeObject => simp [Lexeme.value?] at h
  | comma => simp [Lexeme.value?] at h
  | colon => simp [Lexeme.value?] at h

/-- A name and a colon lead to the value of the member. -/
theorem run?_name (name : Name) (read : List (Option String × Raw)) (frames : List Frame)
    (behind : List Spelling) :
    (Progress.atName (.members read :: frames)).run? (name.token :: .colon :: behind) =
      (Progress.atValue (.member name.text read :: frames)).run? behind := by
  simp only [run?_cons, step?, name.isString, named?, Option.bind_some, Spelling.colon]

/-- The name of the first member is read like any other. -/
theorem run?_firstName (name : Name) (frames : List Frame) (behind : List Spelling) :
    (Progress.atFirst (.members [] :: frames)).run? (name.token :: .colon :: behind) =
      (Progress.atValue (.member name.text [] :: frames)).run? behind := by
  simp only [run?_cons, step?, name.isString, named?, Option.bind_some, Spelling.colon]

mutual

/-- Where a value may stand, reading its tokens leads to behind the value. -/
theorem Source.run?_tokens (source : Source) (frames : List Frame) :
    (Progress.atValue frames).run? (source.tokens false) =
      some (.afterValue source.value frames) := by
  cases source with
  | literal token value stands =>
    rw [Source.tokens, run?_cons, step?, enter?_of_value? frames stands]
    rfl
  | array items comma =>
    cases items with
    | nil => rfl
    | cons item items =>
      have hopen : (Progress.atValue frames).step? Spelling.openArray.lexeme =
        some (.atFirst (.items [] :: frames)) := rfl
      simp only [Source.tokens, Source.lastComma, Bool.false_and, Bool.false_eq_true, if_false,
        List.append_nil, List.append_assoc]
      rw [run?_cons, hopen, Option.bind_some, run?_atFirst, run?_append,
        Source.run?_tokens item, Option.bind_some, Source.run?_itemTokens items]
      rfl
  | object members comma =>
    cases members with
    | nil => rfl
    | cons member members =>
      obtain ⟨name, member⟩ := member
      have hopen : (Progress.atValue frames).step? Spelling.openObject.lexeme =
        some (.atFirst (.members [] :: frames)) := rfl
      simp only [Source.tokens, Source.lastComma, Bool.false_and, Bool.false_eq_true, if_false,
        List.append_nil, List.append_assoc]
      rw [run?_cons, hopen, Option.bind_some, run?_firstName, run?_append,
        Source.run?_tokens member, Option.bind_some, Source.run?_memberTokens members]
      rfl

/-- Behind an item, the items that follow and the closing bracket end the array. -/
theorem Source.run?_itemTokens (items : List Source) (value : Raw) (read : List Raw)
    (frames : List Frame) :
    (Progress.afterValue value (.items read :: frames)).run?
        (Source.itemTokens false items ++ [.closeArray]) =
      some (.afterValue (.array ((value :: read).reverse ++ Source.itemValues items)) frames) := by
  cases items with
  | nil =>
    simp [Source.itemTokens, Source.itemValues, run?_cons, run?_nil, step?, proceed?,
      Spelling.closeArray]
  | cons item items =>
    have hcomma : (Progress.afterValue value (.items read :: frames)).step?
      Spelling.comma.lexeme = some (.atValue (.items (value :: read) :: frames)) := rfl
    simp only [Source.itemTokens, Source.itemValues, List.cons_append, List.append_assoc]
    rw [run?_cons, hcomma, Option.bind_some, run?_append, Source.run?_tokens item,
      Option.bind_some, Source.run?_itemTokens items]
    simp

/-- Behind a member, the members that follow and the closing brace end the object. -/
theorem Source.run?_memberTokens (members : List (Name × Source)) (name : Option String)
    (value : Raw) (read : List (Option String × Raw)) (frames : List Frame) :
    (Progress.afterValue value (.member name read :: frames)).run?
        (Source.memberTokens false members ++ [.closeObject]) =
      some (.afterValue
        (.object (((name, value) :: read).reverse ++ Source.memberValues members)) frames) := by
  cases members with
  | nil =>
    simp [Source.memberTokens, Source.memberValues, run?_cons, run?_nil, step?, proceed?,
      Spelling.closeObject]
  | cons member members =>
    obtain ⟨next, member⟩ := member
    have hcomma : (Progress.afterValue value (.member name read :: frames)).step?
      Spelling.comma.lexeme = some (.atName (.members ((name, value) :: read) :: frames)) := rfl
    simp only [Source.memberTokens, Source.memberValues, List.cons_append, List.append_assoc]
    rw [run?_cons, hcomma, Option.bind_some, run?_name, run?_append, Source.run?_tokens member,
      Option.bind_some, Source.run?_memberTokens members]
    simp

end

/-! ### What is read -/

/-- What may follow a lexeme: no closing bracket behind a comma, and no numeral or word behind
another. -/
def Lexeme.Follows (lexeme next : Lexeme) : Prop :=
  (lexeme.isComma && next.closes) = false ∧ (lexeme.isScalar && next.isScalar) = false

/-- Behind a comma comes a value or a name. -/
theorem Progress.of_step?_comma {progress next : Progress}
    (h : progress.step? .comma = some next) :
    ∃ frames, next = .atValue frames ∨ next = .atName frames := by
  cases progress with
  | atValue frames => simp [step?, enter?] at h
  | atFirst frames =>
    rcases frames with _ | ⟨frame, frames⟩
    · simp [step?, named?] at h
    · cases frame <;> simp [step?, enter?, named?] at h
  | atName frames => simp [step?, named?] at h
  | atColon frames => simp [step?] at h
  | afterValue value frames =>
    rcases frames with _ | ⟨frame, frames⟩
    · simp [step?, proceed?] at h
    · cases frame with
      | items read =>
        obtain rfl := by simpa [step?, proceed?] using h
        exact ⟨_, .inl rfl⟩
      | members read => simp [step?, proceed?] at h
      | member name read =>
        obtain rfl := by simpa [step?, proceed?] using h
        exact ⟨_, .inr rfl⟩

/-- A numeral or a word is a whole value. -/
theorem Progress.of_step?_scalar {progress next : Progress} {scalar : Option Json}
    (h : progress.step? (.scalar scalar) = some next) :
    ∃ value frames, next = .afterValue value frames := by
  cases progress with
  | atValue frames =>
    obtain rfl := by simpa [step?, enter?] using h
    exact ⟨_, _, rfl⟩
  | atFirst frames =>
    rcases frames with _ | ⟨frame, frames⟩
    · simp [step?, named?] at h
    · cases frame with
      | items read =>
        obtain rfl := by simpa [step?, enter?] using h
        exact ⟨_, _, rfl⟩
      | members read => simp [step?, named?] at h
      | member name read => simp [step?, named?] at h
  | atName frames => simp [step?, named?] at h
  | atColon frames => simp [step?] at h
  | afterValue value frames =>
    rcases frames with _ | ⟨frame, frames⟩
    · simp [step?, proceed?] at h
    · cases frame <;> simp [step?, proceed?] at h

/-- Two lexemes are read one after the other only where the second may follow the first. -/
theorem Progress.follows_of_step? {progress between next : Progress} {lexeme following : Lexeme}
    (hfirst : progress.step? lexeme = some between)
    (hsecond : between.step? following = some next) : lexeme.Follows following := by
  constructor
  · cases lexeme with
    | comma =>
      obtain ⟨frames, rfl | rfl⟩ := of_step?_comma hfirst
      · cases following with
        | closeArray => simp [step?, enter?] at hsecond
        | closeObject => simp [step?, enter?] at hsecond
        | _ => rfl
      · cases following with
        | closeArray => simp [step?, named?] at hsecond
        | closeObject => simp [step?, named?] at hsecond
        | _ => rfl
    | _ => rfl
  · cases lexeme with
    | scalar value =>
      obtain ⟨value, frames, rfl⟩ := of_step?_scalar hfirst
      cases following with
      | scalar value => simp [step?, proceed?] at hsecond
      | _ => rfl
    | _ => rfl

/-- Everything that is read follows on what was read before. -/
theorem Progress.isChain_of_run? {progress final : Progress} {tokens : List Spelling}
    (h : progress.run? tokens = some final) :
    tokens.IsChain fun token next => token.lexeme.Follows next.lexeme := by
  induction tokens generalizing progress with
  | nil => exact .nil
  | cons token tokens ih =>
    rw [run?_cons] at h
    obtain ⟨between, hstep, hrest⟩ := Option.bind_eq_some_iff.mp h
    cases tokens with
    | nil => exact .singleton token
    | cons next tokens =>
      have hrest' := hrest
      rw [run?_cons] at hrest'
      obtain ⟨after, hnext, -⟩ := Option.bind_eq_some_iff.mp hrest'
      exact .cons_cons (follows_of_step? hstep hnext) (ih hrest)

end Mcfunction.Json
