import Mcfunction.Proofs.Parser.Container
import Mcfunction.Proofs.Written.Scan
import Mcfunction.Tree.Written

/-!
# Reading Back Leaves

`Parses p unplaced ends text value` says that `p` reads `text` as `value`, wherever the text
stands and whatever follows it, as long as `ends` holds of what follows. What it gives is
`value` up to places.

## Main results

* `quotedString_parses`, `key_parses`: strings in quotes and keys.
* `Numeral.exists_printable`: every numeral writes a number.
* `number_parses`, `resource_parses`, `boolean_parses`: numbers, resource locations and truth
  values, which read up to a comma or a closing bracket.
-/

namespace Mcfunction

namespace Parser

variable {α : Type}

/-- Wherever `text` stands with something after it that `ends` it, the parser reads it and gives
`value` up to places. -/
def Parses (p : Parser α) (unplaced : α → α) (ends : List Char → Prop) (text : List Char)
    (value : α) : Prop :=
  ∀ s c tail, c.rest = text ++ tail → ends tail →
    ∃ found, p s c = .done found [] (c.advance text.length) ∧ unplaced found = unplaced value

/-- A comma or a closing bracket follows. -/
def ValueEnds (tail : List Char) : Prop :=
  ∃ x rest, tail = x :: rest ∧ Scan.endsValue x

/-- The operator of a pair follows. -/
def KeyEnds (tail : List Char) : Prop :=
  ∃ operator rest, tail = PairOperator.char operator :: rest

/-- Anything may follow. -/
def AnyEnds (_ : List Char) : Prop :=
  True

end Parser

namespace Cursor

variable {c : Cursor} {text tail : List Char}

/-- A text that comes next is no longer than what is left. -/
theorem length_le_of_append (h : c.rest = text ++ tail) : text.length ≤ c.rest.length := by
  simp [h]

/-- Behind a text that comes next is what follows it. -/
theorem advance_rest_of_append (h : c.rest = text ++ tail) :
    (c.advance text.length).rest = tail := by
  rw [advance_rest, h, List.drop_left]

/-- The text that comes next is cut out as it is. -/
theorem textBetween_of_append {value : String} (h : c.rest = value.toList ++ tail) :
    c.textBetween 0 value.toList.length = value := by
  rw [textBetween, h, List.drop_zero, Nat.sub_zero, List.take_left, String.ofList_toList]

end Cursor

/-! ### Strings -/

namespace StringLiteral.Quoted

variable {literal : StringLiteral}

/-- A string in quotes with what follows it. -/
theorem exists_eq (h : literal.Quoted) : ∃ quote, literal.quote.char? = some quote ∧
    (quote = '"' ∨ quote = '\'') ∧ QuotedBody quote literal.value.toList ∧
    ∀ tail, literal.written ++ tail = quote :: (literal.value.toList ++ quote :: tail) := by
  obtain ⟨quote, hquote, hbody⟩ := h
  refine ⟨quote, hquote, ?_, hbody, fun tail => by simp [written, hquote]⟩
  rcases Quote.char?_eq_some hquote with ⟨-, rfl⟩ | ⟨-, rfl⟩
  · exact .inl rfl
  · exact .inr rfl

/-- A quoted string is not taken for a bare macro argument. -/
theorem startsInterpolated (h : literal.Quoted) (inKey : Bool) (tail : List Char) :
    Scan.startsInterpolated inKey (literal.written ++ tail) = false := by
  obtain ⟨quote, -, hquote, hbody, hwritten⟩ := h.exists_eq
  rw [hwritten, Scan.startsInterpolated_body hbody hquote]

/-- A quoted string starts with a quote. -/
theorem startsQuoted (h : literal.Quoted) (tail : List Char) :
    Scan.startsQuoted (literal.written ++ tail) := by
  obtain ⟨quote, -, hquote, -, hwritten⟩ := h.exists_eq
  rw [hwritten]
  rcases hquote with rfl | rfl <;> rfl

end StringLiteral.Quoted

namespace Parser

/-- A quoted string is read as it is written. -/
theorem quotedString_parses {literal : StringLiteral} (h : literal.Quoted) :
    Parses quotedString StringLiteral.unplaced AnyEnds literal.written literal := by
  intro s c tail hrest _
  have hstart : Scan.startsQuoted c.rest := hrest ▸ h.startsQuoted tail
  obtain ⟨quote, hkind, hquote, hbody, hwritten⟩ := h.exists_eq
  rw [hwritten] at hrest
  have hquoted : Scan.quoted c.rest = .ok ⟨literal.value.toList.length + 1, false⟩ :=
    hrest ▸ Scan.quoted_body hbody hquote
  have hcount : literal.written.length = literal.value.toList.length + 2 := by
    simpa using congrArg List.length (hwritten [])
  have hvalue : c.textBetween 1 (literal.value.toList.length + 1) = literal.value := by
    simp [Cursor.textBetween, hrest]
  have hquoteAt : quoteAt c = literal.quote := by
    rcases Quote.char?_eq_some hkind with ⟨hliteral, rfl⟩ | ⟨hliteral, rfl⟩
    · simp [quoteAt, Cursor.peek, hrest, hliteral]
    · simp [quoteAt, Cursor.peek, hrest, hliteral]
  rw [quotedString_run hstart hquoted, hcount]
  refine ⟨_, rfl, ?_⟩
  rw [Cursor.quotedString, hvalue, hquoteAt]
  rfl

/-! ### Keys -/

/-- A key is read as it is written. -/
theorem key_parses {key : NbtKey} (h : key.Printable) :
    Parses Parser.key NbtKey.unplaced KeyEnds key.written key := by
  rintro s c _ hrest ⟨operator, tail, rfl⟩
  rw [Parser.key, bind_done here_run]
  cases h with
  | @quoted literal h =>
      have hplain : Scan.startsInterpolated true c.rest = false :=
        hrest ▸ h.startsInterpolated true _
      have hstart : Scan.startsQuoted c.rest := hrest ▸ h.startsQuoted _
      obtain ⟨found, hrun, hfound⟩ := quotedString_parses h s c _ hrest trivial
      rw [hplain, if_neg Bool.false_ne_true, if_pos hstart, bind_done hrun]
      exact ⟨_, rfl, congrArg NbtKey.plain hfound⟩
  | @bare word span h =>
      have hends : Scan.isWordChar operator.char = false ∧
          Scan.isLeadChar true operator.char = false ∧ operator.char ≠ '$' := by
        cases operator <;> decide
      have hscalar := h.mono Scan.isScalarChar_of_isWordChar
      replace hrest : c.rest = word.toList ++ operator.char :: tail := hrest
      have hplain : Scan.startsInterpolated true c.rest = false :=
        hrest ▸ Scan.startsInterpolated_append_cons hscalar hends.2.1 hends.2.2
      have hbare : Scan.startsQuoted c.rest = false :=
        hrest ▸ Scan.startsQuoted_append_cons hscalar
      have hword : Scan.word c.rest = some word.toList.length :=
        hrest ▸ h.run?_append_cons hends.1
      rw [hplain, if_neg Bool.false_ne_true, hbare, if_neg Bool.false_ne_true, hword]
      dsimp only
      rw [bind_done (bareString_run (Cursor.length_le_of_append hrest))]
      refine ⟨_, rfl, ?_⟩
      rw [Cursor.bareString, Cursor.textBetween_of_append hrest]
      rfl

end Parser

/-! ### The values of numerals -/

section

variable {mantissa exponent digits : List Char}

/-- An exponent can be read. -/
theorem Exponent.readExponent_isSome (h : Exponent exponent) :
    (Decimal.readExponent exponent).isSome := by
  cases h with
  | absent => rfl
  | present hletter hsign hdigits =>
      obtain ⟨c, rest, rfl⟩ := List.exists_cons_of_ne_nil hdigits.1
      have hc := hdigits.2 c List.mem_cons_self
      have hrest : ∀ d ∈ rest, d.isDigit := (List.forall_mem_cons.mp hdigits.2).2
      have hminus : c ≠ '-' := Scan.ne_of_class hc (by decide)
      have hplus : c ≠ '+' := Scan.ne_of_class hc (by decide)
      rcases hsign with rfl | rfl | rfl
      · simpa [Decimal.readExponent, hletter, hc, hminus, hplus] using hrest
      · simpa [Decimal.readExponent, hletter, hc] using hrest
      · simpa [Decimal.readExponent, hletter, hc] using hrest

/-- An exponent starts with neither a digit nor a point. -/
theorem Exponent.takeWhile_eq (h : Exponent exponent) :
    exponent.takeWhile Char.isDigit = [] ∧ exponent.dropWhile Char.isDigit = exponent ∧
      ∀ rest, exponent ≠ '.' :: rest := by
  cases h with
  | absent => simp
  | present hletter _ _ => rcases hletter with rfl | rfl <;> simp

/-- No sign stands in front of a mantissa. -/
theorem Mantissa.append_ne_minus (h : Mantissa mantissa) (rest : List Char) :
    mantissa ++ exponent ≠ '-' :: rest := by
  obtain ⟨c, chars, rfl, hc⟩ := h.exists_cons
  exact fun heq => hc (List.cons.inj heq).1

/-- A mantissa with an exponent can be read as a decimal. -/
theorem Mantissa.ofChars?_isSome (h : Mantissa mantissa) (hexponent : Exponent exponent) :
    (Decimal.ofChars? (mantissa ++ exponent)).isSome := by
  have hread := hexponent.readExponent_isSome
  obtain ⟨htake, hdrop, hpoint⟩ := hexponent.takeWhile_eq
  rw [Decimal.ofChars?]
  case x => exact h.append_ne_minus
  cases h with
  | whole h =>
      simp [List.takeWhile_append_of_pos h.2, List.dropWhile_append_of_pos h.2, htake, hdrop, h.1,
        hread]
  | decimal hwhole hfraction =>
      simp [List.takeWhile_append_of_pos hwhole.2, List.dropWhile_append_of_pos hwhole.2,
        List.takeWhile_append_of_pos hfraction.2, List.dropWhile_append_of_pos hfraction.2, htake,
        hdrop, hwhole.1, hread]
  | fraction h =>
      simp [List.takeWhile_append_of_pos h.2, List.dropWhile_append_of_pos h.2, htake, hdrop, h.1,
        hread]

/-- A minus sign changes no numeral into something else. -/
theorem Decimal.ofChars?_minus {chars : List Char} (h : ∀ rest, chars ≠ '-' :: rest) :
    (Decimal.ofChars? ('-' :: chars)).isSome = (Decimal.ofChars? chars).isSome := by
  rw [Decimal.ofChars?, Decimal.ofChars?.eq_2 _ h]
  split
  split <;> simp

/-- A numeral can be read as a decimal. -/
theorem Numeral.ofChars?_isSome (h : Numeral digits) : (Decimal.ofChars? digits).isSome := by
  cases h with
  | positive hmantissa hexponent => exact hmantissa.ofChars?_isSome hexponent
  | negative hmantissa hexponent =>
      rw [Decimal.ofChars?_minus hmantissa.append_ne_minus]
      exact hmantissa.ofChars?_isSome hexponent

/-- Every numeral writes a number, whatever its type letter. -/
theorem Numeral.exists_printable (h : Numeral digits) {suffix : Option Char}
    (hsuffix : ∀ letter ∈ suffix, Scan.isSuffixLetter letter) (span : Span) :
    ∃ value, Number.Printable ⟨value, suffix, String.ofList (digits ++ suffix.toList), span⟩ := by
  obtain ⟨decimal, hdecimal⟩ := Option.isSome_iff_exists.mp h.ofChars?_isSome
  exact ⟨decimal.toBinary64, digits, h, hsuffix, by simp, by simp [Binary64.ofChars?, hdecimal]⟩

end

/-! ### Scalars -/

/-- A number is written as a scalar without a colon. -/
theorem Number.Printable.row {number : Number} (h : number.Printable) :
    Row Scan.isScalarChar number.raw.toList ∧ ':' ∉ number.raw.toList := by
  obtain ⟨digits, hdigits, hsuffix, hraw, -⟩ := h
  have hletters : ∀ c ∈ number.suffix.toList, Scan.isSuffixLetter c := fun c hc =>
    hsuffix c (Option.mem_toList.mp hc)
  rw [hraw, List.mem_append, not_or]
  refine ⟨(hdigits.row.mono Scan.isScalarChar_of_isNumeralChar).append ?_, ?_, ?_⟩
  · exact fun c hc => Scan.isScalarChar_of_isSuffixLetter (hletters c hc)
  · exact fun hmem => absurd (hdigits.row.2 _ hmem) (by decide)
  · exact fun hmem => absurd (hletters _ hmem) (by decide)

/-- The path of a resource consists of characters of scalars. -/
theorem ResourcePath.forall_isScalarChar {path : List Char} (h : ResourcePath path) :
    ∀ c ∈ path, Scan.isScalarChar c := by
  have hsegment : ∀ {segment : List Char}, Row Scan.isPathChar segment →
      ∀ c ∈ segment, Scan.isScalarChar c := by
    intro segment h c hc
    simp [Scan.isScalarChar, h.2 c hc]
  induction h with
  | last h => exact hsegment h
  | more h _ ih =>
      rw [List.forall_mem_append, List.forall_mem_cons]
      exact ⟨hsegment h, rfl, ih⟩

/-- A resource location is written as a scalar. -/
theorem ResourceLocation.Printable.row {location : ResourceLocation} (h : location.Printable) :
    Row Scan.isScalarChar location.written := by
  refine (h.space.mono Scan.isScalarChar_of_isWordChar).append ?_
  exact List.forall_mem_cons.mpr ⟨rfl, h.path.forall_isScalarChar⟩

/-- A truth value is written as a word. -/
theorem Boolean.row (boolean : Boolean) : Row Scan.isWordChar boolean.written := by
  rw [Boolean.written]
  cases boolean.value <;> decide

/-- A truth value is written without a colon. -/
theorem Boolean.colon_notMem (boolean : Boolean) : ':' ∉ boolean.written :=
  fun hmem => absurd (boolean.row.2 _ hmem) (by decide)

/-- A truth value is not taken for a number. -/
theorem Boolean.suffixedNumber (boolean : Boolean) :
    Scan.suffixedNumber boolean.written = none := by
  rw [Boolean.written]
  cases boolean.value <;> decide

namespace Parser

/-- A number is read as it is written. -/
theorem number_parses {number : Number} (h : number.Printable) :
    Parses scalar NbtValue.unplaced ValueEnds number.raw.toList (.number number) := by
  rintro s c _ hrest ⟨x, tail, rfl, hx⟩
  obtain ⟨hrow, hcolon⟩ := h.row
  obtain ⟨digits, hdigits, hsuffix, hraw, hvalue⟩ := h
  have hspace : Scan.resourceNamespace c.rest = none :=
    hrest ▸ Scan.resourceNamespace_scalar hrow hcolon hx
  have hnumber : Scan.wholeNumber c.rest = some (number.raw.toList.length, number.suffix) := by
    rw [hrest, hraw]
    exact Scan.wholeNumber_numeral hdigits hsuffix hx
  rw [scalar, bind_done here_run, hspace, hnumber]
  dsimp only [Option.bind_none]
  rw [bind_done (number_run hnumber)]
  refine ⟨_, rfl, ?_⟩
  have hdigitsAt : c.rest.take (if number.suffix.isSome then number.raw.toList.length - 1
      else number.raw.toList.length) = digits := by
    rw [hrest, hraw]
    cases number.suffix <;> simp
  rw [Cursor.number, hdigitsAt, hvalue, Cursor.textBetween_of_append hrest]
  rfl

/-- A resource location is read as it is written. -/
theorem resource_parses {location : ResourceLocation} (h : location.Printable) :
    Parses scalar NbtValue.unplaced ValueEnds location.written (.resource location) := by
  rintro s c _ hrest ⟨x, tail, rfl, hx⟩
  have hends : Scan.isPathChar x = false ∧ x ≠ '/' := by
    rcases Scan.endsValue_iff.mp hx with rfl | rfl | rfl <;> decide
  have hlength : location.written.length =
      location.space.toList.length + 1 + location.path.toList.length := by
    simp [ResourceLocation.written]
    omega
  have hrest' : c.rest = location.space.toList ++ ':' :: (location.path.toList ++ x :: tail) := by
    simp [hrest, ResourceLocation.written]
  have hdrop : c.rest.drop (location.space.toList.length + 1) =
      location.path.toList ++ x :: tail := by
    simp [hrest', List.drop_append]
  have hspace : Scan.resourceNamespace c.rest = some location.space.toList.length :=
    hrest' ▸ Scan.resourceNamespace_row h.space
  have hpath : Scan.path (c.rest.drop (location.space.toList.length + 1)) =
      some location.path.toList.length :=
    hdrop ▸ Scan.path_of_resourcePath h.path hends.1 hends.2
  rw [scalar, bind_done here_run, hspace, Option.bind_some, hpath, Option.map_some]
  dsimp only
  rw [bind_done (resourceLocation_run hspace hpath), hlength]
  refine ⟨_, rfl, ?_⟩
  have hpathText : c.textBetween (location.space.toList.length + 1)
      (location.space.toList.length + 1 + location.path.toList.length) = location.path := by
    rw [Cursor.textBetween, hdrop, Nat.add_sub_cancel_left, List.take_left, String.ofList_toList]
  rw [Cursor.resourceLocation, Cursor.textBetween_of_append hrest', hpathText]
  rfl

/-- A truth value is read as it is written. -/
theorem boolean_parses (boolean : Boolean) :
    Parses scalar NbtValue.unplaced ValueEnds boolean.written (.boolean boolean) := by
  rintro s c _ hrest ⟨x, tail, rfl, hx⟩
  have hends : Scan.isNumeralChar x = false ∧ Scan.isSuffixLetter x = false ∧
      Scan.isWordChar x = false := by
    rcases Scan.endsValue_iff.mp hx with rfl | rfl | rfl <;> decide
  have hrow := boolean.row.mono Scan.isScalarChar_of_isWordChar
  have hspace : Scan.resourceNamespace c.rest = none :=
    hrest ▸ Scan.resourceNamespace_scalar hrow boolean.colon_notMem hx
  have hnumber : Scan.wholeNumber c.rest = none := by
    rw [hrest, Scan.wholeNumber, Scan.suffixedNumber_append_cons hends.1 hends.2.1,
      boolean.suffixedNumber]
  have hword : Scan.word c.rest = some boolean.written.length :=
    hrest ▸ boolean.row.run?_append_cons hends.2.2
  rw [scalar, bind_done here_run, hspace, hnumber, hword]
  dsimp only [Option.bind_none]
  rw [bind_done (bareString_run (Cursor.length_le_of_append hrest)), Cursor.bareString,
    Boolean.written, Cursor.textBetween_of_append hrest]
  obtain ⟨truth, span⟩ := boolean
  cases truth
  · exact ⟨_, rfl, rfl⟩
  · exact ⟨_, rfl, rfl⟩

end Parser

end Mcfunction
