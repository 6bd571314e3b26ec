import Mathlib.Data.List.Forall2
import Mcfunction.Proofs.Lookup
import Mcfunction.Proofs.Octets.Text

/-!
# Recognizers Stop between Characters

A recognizer that starts between two characters of a text stops between two characters of it, and
the errors that it reports lie between such places. For that it need not step over whole characters:
if it takes the bytes of the text one by one, it stops at the same offset. All that it compares with
is one byte long, and no such byte stands inside a longer character.

`Lookup.Reaches` says this of one end, and `Lookup.Confined` of all that is found at an offset.

## Main results

* `Lookup.confined`: what is found at a boundary, whatever the text is.
-/

namespace Mcfunction.Lookup

variable {text : String} {c : Cursor} {offset bytes n : Nat}

/-! ### Ends -/

/-- The bytes of a text from an offset on, each taken for the character of its number. -/
def octets (text : String) (offset : Nat) : List Char :=
  (text.toUTF8.data.toList.drop offset).map Char.ofUInt8

/-- From the offset of a place on, the bytes are those of what is left. -/
theorem octets_offset (hc : Cursor.start text ≤ c) :
    octets text c.offset = Scan.octets c.rest := by
  rw [octets, drop_toUTF8 hc, Scan.octets]

/-- `stop` lies `bytes` bytes behind `start`, in the text and between two of its characters. -/
structure Reaches (text : String) (start bytes stop : Nat) : Prop where
  /-- So many bytes lie between them. -/
  add_eq : start + bytes = stop
  /-- It does not lie before `start`. -/
  le : start ≤ stop
  /-- It does not lie past the end of the text. -/
  le_size : stop ≤ text.utf8ByteSize
  /-- It lies between two characters or at an end of the text. -/
  boundary : isBoundary text stop

/-- Aligned bytes lead to the offset behind the characters. -/
theorem Reaches.of_aligned (hc : Cursor.start text ≤ c) (h : Scan.Aligned c.rest bytes n) :
    Reaches text c.offset bytes (c.offsetAfter n) := by
  have hle := Cursor.le_advance h.le_length
  refine ⟨?_, Cursor.offset_le_of_le hle, ?_, isBoundary_offset (hc.trans hle)⟩
  · rw [Cursor.offsetAfter, Cursor.advance_offset h.le_length, h.byteWidth_take]
  · obtain ⟨before, htext, hbefore⟩ := Cursor.exists_before (hc.trans hle)
    rw [Cursor.offsetAfter, ← hbefore, htext, String.utf8ByteSize_append]
    exact Nat.le_add_right _ _

/-- So do narrow characters. -/
theorem Reaches.of_narrow (hc : Cursor.start text ≤ c) (h : Scan.Narrow c.rest n) :
    Reaches text c.offset n (c.offsetAfter n) :=
  of_aligned hc h.aligned

/-- What is told of the bytes and of the text at an offset: the same found, or the same error at a
span between boundaries. -/
inductive Tells {α β : Type} (text : String) (offset : Nat) (same : α → β → Prop) :
    Except Scan.Error α → Except ParseError β → Prop
  /-- Something is found. -/
  | ok {found : α} {found' : β} : same found found' →
      Tells text offset same (.ok found) (.ok found')
  /-- An error is found. -/
  | error {error : Scan.Error} {error' : ParseError} : error'.cause = .lexical error.fault →
      Reaches text offset error.start error'.span.start →
      Reaches text offset error.stop error'.span.stop → error'.span.start ≤ error'.span.stop →
      Tells text offset same (.error error) (.error error')

/-- All that the recognizers find at an offset ends where they end when they take the bytes of the
text one by one, and between two characters of the text. -/
structure Confined (text : String) (offset : Nat) : Prop where
  /-- The recognizers that always take something, if only the empty text. -/
  skip : ∀ f ∈ [Scan.trivia, Scan.statement, Scan.commentText],
    Reaches text offset (f (octets text offset)) (skip f text offset)
  /-- The recognizers that may find nothing. -/
  find : ∀ f ∈ [Scan.continuation, Scan.number, Scan.coordinate, Scan.word, Scan.path,
      Scan.commandName, Scan.fakePlayer],
    Option.Rel (Reaches text offset) (f (octets text offset)) (find? f text offset)
  /-- A number with its type letter. -/
  suffixedNumber : Option.Rel (fun found found' =>
      Reaches text offset found.1 found'.1 ∧ found.2 = found'.2)
    (Scan.suffixedNumber (octets text offset)) (suffixedNumber? text offset)
  /-- Both ends of three coordinate parts. -/
  coordinates : Option.Rel (fun parts spans => List.Forall₂ (fun part span =>
      Reaches text offset part.1 span.start ∧ Reaches text offset part.2 span.stop)
      parts.toList spans.toList)
    (Scan.coordinates (octets text offset)) (coordinates? text offset)
  /-- A fragment of interpolated text. -/
  fragment : ∀ inKey, Option.Rel (Reaches text offset) (Scan.fragment inKey (octets text offset))
    (fragment? inKey text offset)
  /-- The tag of a comment and its mark. -/
  commentTag :
    Reaches text offset (Scan.commentTag (octets text offset)).1 (commentTag text offset).1 ∧
      (Scan.commentTag (octets text offset)).2 = (commentTag text offset).2
  /-- An interpolation, where one starts. -/
  interpolation : holds text offset "$(" → Tells text offset (Reaches text offset)
    (Scan.interpolation (octets text offset)) (interpolation text offset)
  /-- A quoted string, where a quote stands. -/
  quoted : char? text offset = some '"' ∨ char? text offset = some '\'' →
    Tells text offset (fun found found' =>
      Reaches text offset found.count found'.1 ∧ found.interpolated = found'.2)
      (Scan.quoted (octets text offset)) (quoted text offset)

/-! ### Every boundary -/

section

variable (hc : Cursor.start text ≤ c)

include hc

/-- What is skipped ends where the bytes say. -/
theorem skip_reaches {f : List Char → Nat}
    (h : Scan.Aligned c.rest (f (Scan.octets c.rest)) (f c.rest)) :
    Reaches text c.offset (f (octets text c.offset)) (skip f text c.offset) := by
  rw [octets_offset hc, skip, Cursor.atOffset_offset hc]
  exact .of_aligned hc h

/-- What is found ends where the bytes say, if anything is. -/
theorem find?_reaches {f : List Char → Option Nat}
    (h : Option.Rel (Scan.Aligned c.rest) (f (Scan.octets c.rest)) (f c.rest)) :
    Option.Rel (Reaches text c.offset) (f (octets text c.offset)) (find? f text c.offset) := by
  rw [octets_offset hc, find?_offset hc]
  generalize f (Scan.octets c.rest) = found at h
  generalize f c.rest = found' at h
  cases h with
  | some h => exact .some (.of_aligned hc h)
  | none => exact .none

/-- What is found alike in the bytes, and holds characters of one byte only. -/
theorem find?_reaches_of_narrow {f : List Char → Option Nat}
    (hsame : f (Scan.octets c.rest) = f c.rest)
    (hnarrow : ∀ {n}, f c.rest = some n → Scan.Narrow c.rest n) :
    Option.Rel (Reaches text c.offset) (f (octets text c.offset)) (find? f text c.offset) := by
  refine find?_reaches hc ?_
  rw [hsame]
  rcases hn : f c.rest with _ | n
  · exact .none
  · exact .some (hnarrow hn).aligned

/-- A number with its type letter ends where the bytes say, with the same letter. -/
theorem suffixedNumber?_reaches : Option.Rel (fun found found' =>
      Reaches text c.offset found.1 found'.1 ∧ found.2 = found'.2)
    (Scan.suffixedNumber (octets text c.offset)) (suffixedNumber? text c.offset) := by
  rw [octets_offset hc, Scan.suffixedNumber_octets, suffixedNumber?, Cursor.atOffset_offset hc]
  rcases hn : Scan.suffixedNumber c.rest with _ | ⟨n, suffix⟩
  · exact .none
  · have hnarrow := (Scan.taken_suffixedNumber hn).narrow fun _ => Scan.isNarrow_of_isTokenChar
    exact .some ⟨.of_narrow hc hnarrow, rfl⟩

/-- Coordinates stand where the bytes say. -/
theorem coordinates?_reaches : Option.Rel (fun parts spans => List.Forall₂ (fun part span =>
      Reaches text c.offset part.1 span.start ∧ Reaches text c.offset part.2 span.stop)
      parts.toList spans.toList)
    (Scan.coordinates (octets text c.offset)) (coordinates? text c.offset) := by
  rw [octets_offset hc, Scan.coordinates_octets, coordinates?, Cursor.atOffset_offset hc]
  rcases hparts : Scan.coordinates c.rest with _ | parts
  · exact .none
  · have hnarrow := (Scan.taken_coordinates hparts).narrow fun _ => Scan.isNarrow_of_isLeafChar
    obtain ⟨hx, hxy, hy, hyz, hz, -⟩ := Scan.coordinates_eq_some hparts
    have hreach : ∀ n ≤ parts.z.2, Reaches text c.offset n (c.offsetAfter n) := fun n hn =>
      .of_narrow hc (hnarrow.of_le hn)
    refine .some (.cons ⟨hreach _ ?_, hreach _ ?_⟩ (.cons ⟨hreach _ ?_, hreach _ ?_⟩
      (.cons ⟨hreach _ ?_, hreach _ ?_⟩ .nil))) <;> omega

/-- An error is told at the places that the bytes say. -/
theorem Tells.of_error {α β : Type} {same : α → β → Prop} {error error' : Scan.Error}
    (hfault : error.fault = error'.fault) (hstart : Scan.Aligned c.rest error.start error'.start)
    (hstop : Scan.Aligned c.rest error.stop error'.stop) :
    Tells text c.offset same (.error error) (.error (error'.at c)) :=
  have hle := Cursor.advance_le_advance error'.ordered hstop.le_length
  .error (congrArg Cause.lexical hfault.symm) (.of_aligned hc hstart) (.of_aligned hc hstop)
    (Cursor.offset_le_of_le hle)

/-- An interpolation is told as the bytes say. -/
theorem interpolation_tells (hstart : Scan.startsInterpolation c.rest) :
    Tells text c.offset (Reaches text c.offset) (Scan.interpolation (octets text c.offset))
      (interpolation text c.offset) := by
  have hagree := Scan.agree_interpolation hstart
  rw [octets_offset hc, interpolation, Cursor.atOffset_offset hc]
  generalize Scan.interpolation (Scan.octets c.rest) = found at hagree
  generalize Scan.interpolation c.rest = found' at hagree
  cases hagree with
  | ok h => exact .ok (.of_aligned hc h)
  | error hfault hstart hstop => exact .of_error hc hfault hstart hstop

/-- A quote is a character of one byte, so the string is looked for among the characters. -/
theorem quoted_tells (hquote : c.peek = some '"' ∨ c.peek = some '\'') :
    Tells text c.offset (fun found found' =>
      Reaches text c.offset found.count found'.1 ∧ found.interpolated = found'.2)
      (Scan.quoted (octets text c.offset)) (quoted text c.offset) := by
  have hstart : Scan.startsQuoted c.rest := by
    rcases hquote with h | h <;> obtain ⟨tail, hrest⟩ := List.head?_eq_some_iff.mp h <;>
      rw [hrest] <;> rfl
  have hbyte : (byte? text c.offset).filter (0x80 ≤ ·) = none := by
    rcases hquote with h | h <;> rw [(byte?_offset_iff hc rfl).mpr h] <;> rfl
  have hagree := Scan.agree_quoted hstart
  rw [octets_offset hc, quoted, hbyte, Cursor.atOffset_offset hc]
  generalize Scan.quoted (Scan.octets c.rest) = found at hagree
  dsimp only
  generalize Scan.quoted c.rest = found' at hagree
  cases hagree with
  | ok h => exact .ok ⟨.of_aligned hc h.1, h.2⟩
  | error hfault hstart hstop => exact .of_error hc hfault hstart hstop

/-- The tag of a comment is told as the bytes say. -/
theorem commentTag_reaches :
    Reaches text c.offset (Scan.commentTag (octets text c.offset)).1 (commentTag text c.offset).1 ∧
      (Scan.commentTag (octets text c.offset)).2 = (commentTag text c.offset).2 := by
  rw [octets_offset hc, Scan.commentTag_octets, commentTag, Cursor.atOffset_offset hc]
  exact ⟨.of_narrow hc (Scan.narrow_commentTag _), rfl⟩

/-- A dollar sign and a parenthesis start an interpolation. -/
theorem startsInterpolation_of_holds (h : holds text c.offset "$(") :
    Scan.startsInterpolation c.rest := by
  rw [holds, if_neg (by decide), Bool.and_eq_true, Cursor.atOffset_offset hc,
    List.isPrefixOf_iff_prefix] at h
  obtain ⟨-, tail, hrest⟩ := h
  rw [← hrest]
  rfl

end

/-- What is found at a boundary ends at boundaries, and is found in the bytes as well. -/
theorem confined (h : isBoundary text offset) : Confined text offset := by
  obtain ⟨c, hc, rfl⟩ : ∃ c, Cursor.start text ≤ c ∧ c.offset = offset := by
    rcases place_or_blind text offset with hplace | ⟨-, hblind⟩
    · exact hplace
    · exact absurd h (Bool.eq_false_iff.mp hblind)
  have hskip := fun f => skip_reaches hc (f := f)
  have hfind := fun f => find?_reaches_of_narrow hc (f := f)
  exact {
    skip := by
      simp only [List.forall_mem_cons, List.not_mem_nil, false_implies, implies_true, and_true]
      refine ⟨hskip _ ?_, hskip _ (Scan.aligned_statement _), hskip _ (Scan.aligned_commentText _)⟩
      rw [Scan.trivia_octets]
      exact (Scan.narrow_trivia _).aligned
    find := by
      simp only [List.forall_mem_cons, List.not_mem_nil, false_implies, implies_true, and_true]
      have htoken : ∀ {n}, Scan.Taken Scan.isTokenChar c.rest n → Scan.Narrow c.rest n :=
        fun h => h.narrow fun _ => Scan.isNarrow_of_isTokenChar
      have hsolid : ∀ {n}, Scan.Taken Scan.isSolidChar c.rest n → Scan.Narrow c.rest n :=
        fun h => h.narrow fun _ => Scan.isNarrow_of_isSolidChar
      exact ⟨hfind _ (Scan.continuation_octets _) Scan.narrow_continuation,
        hfind _ (Scan.number_octets _) fun hn => htoken (Scan.taken_number hn),
        hfind _ (Scan.coordinate_octets _) fun hn => hsolid (Scan.taken_coordinate hn),
        hfind _ (Scan.word_octets _) fun hn => htoken (Scan.taken_word hn),
        hfind _ (Scan.path_octets _) fun hn => hsolid (Scan.taken_path hn),
        hfind _ (Scan.commandName_octets _) fun hn => htoken (Scan.taken_commandName hn),
        hfind _ (Scan.fakePlayer_octets _) Scan.narrow_fakePlayer⟩
    suffixedNumber := suffixedNumber?_reaches hc
    coordinates := coordinates?_reaches hc
    fragment := by
      intro inKey
      rw [fragment?, h, Bool.not_true, Bool.and_false, if_neg Bool.false_ne_true]
      exact find?_reaches hc (Scan.aligned_fragment inKey _)
    commentTag := commentTag_reaches hc
    interpolation := fun hholds => interpolation_tells hc (startsInterpolation_of_holds hc hholds)
    quoted := fun hquote => quoted_tells hc (by rwa [char?_offset hc] at hquote)
  }

/-- Behind a character of two bytes, where another one stands in an interpolation left open. -/
theorem confined_behind_wide : isBoundary "é$(ß" 2 ∧ Confined "é$(ß" 2 :=
  ⟨by decide, confined (by decide)⟩

end Mcfunction.Lookup
