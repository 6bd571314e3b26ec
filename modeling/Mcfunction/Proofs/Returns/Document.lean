import Mcfunction.Proofs.Parser.Document
import Mcfunction.Proofs.Returns.Command

/-!
# Statements without Carriage Returns

The text of a comment and the text of a macro line may reach over line continuations, and tell the
returns in them; all else that a statement tells holds no return.

## Main results

* `comment_mirrors`, `macroStatement_mirrors`, `recoverStatement_mirrors`: the kinds of statement.
* `statements_mirrors`: all statements of a text.
-/

namespace Mcfunction

open Text (unix unixCount unix_cons Paired)

variable {t : DosText} {s : Settings} {c d : Cursor}

/-! ### Comments -/

namespace Text

variable {chars : List Char} {p : Char → Bool}

/-- Dropping a class without returns from the front, when what is left goes on as before. -/
theorem dropWhile_unix_of_head (hreturn : p '\r' = false)
    (hhead : (unix (chars.dropWhile p)).head?.any p = false) :
    (unix chars).dropWhile p = unix (chars.dropWhile p) := by
  induction chars with
  | nil => rfl
  | cons c chars ih =>
      by_cases hp : p c
      · have hc : c ≠ '\r' := by
          rintro rfl
          rw [hreturn] at hp
          cases hp
        rw [List.dropWhile_cons_of_pos hp] at hhead ⊢
        rw [unix_cons hc, List.dropWhile_cons_of_pos hp, ih hhead]
      · rw [List.dropWhile_cons_of_neg hp] at hhead ⊢
        rcases hunix : unix (c :: chars) with _ | ⟨x, rest⟩
        · rfl
        · rw [hunix, List.head?_cons, Option.any_some] at hhead
          rw [List.dropWhile_cons_of_neg (by simpa using hhead)]

/-- Behind the characters of a class none of the class comes next. -/
theorem head?_any_dropWhile (p : Char → Bool) (chars : List Char) :
    (chars.dropWhile p).head?.any p = false := by
  have hnot := List.head?_dropWhile_not p chars
  rcases hhead : (chars.dropWhile p).head? with _ | c
  · rfl
  · simpa [hhead] using hnot

/-- A class without line endings is dropped from the front. -/
theorem dropWhile_unix_of_paired (hreturn : p '\r' = false) (hnewline : p '\n' = false)
    (h : Paired chars) : (unix chars).dropWhile p = unix (chars.dropWhile p) := by
  refine dropWhile_unix_of_head hreturn ?_
  rw [(h.of_suffix (List.dropWhile_suffix p)).head?_any_unix hreturn hnewline]
  exact head?_any_dropWhile p chars

/-- A class without line endings is dropped from the back: a return there would have no line feed
behind it. -/
theorem dropWhile_unix_reverse (hreturn : p '\r' = false) (hnewline : p '\n' = false)
    (h : Paired chars) :
    (unix chars).reverse.dropWhile p = unix (chars.reverse.dropWhile p) := by
  rw [← unix_reverse]
  refine dropWhile_unix_of_head hreturn ?_
  have hany := head?_any_dropWhile p chars.reverse
  rcases hrest : chars.reverse.dropWhile p with _ | ⟨c, rest⟩
  · rfl
  · have hc : c ≠ '\r' := by
      rintro rfl
      have hsplit : chars.reverse = chars.reverse.takeWhile p ++ '\r' :: rest := by
        rw [← hrest, List.takeWhile_append_dropWhile]
      have hchars : chars = rest.reverse ++ '\r' :: (chars.reverse.takeWhile p).reverse := by
        simpa using congrArg List.reverse hsplit
      obtain ⟨tail, htail⟩ := List.head?_eq_some_iff.mp (h _ _ hchars)
      have hmem : '\n' ∈ chars.reverse.takeWhile p := by
        rw [← List.mem_reverse, htail]
        exact List.mem_cons_self ..
      have hp := List.mem_takeWhile_imp hmem
      rw [hnewline] at hp
      cases hp
    rw [hrest] at hany
    rw [unix_cons hc]
    exact hany

/-- Characters of a class with the return keep those that stay. -/
theorem takeWhile_unix (hreturn : p '\r') (chars : List Char) :
    (unix chars).takeWhile p = unix (chars.takeWhile p) := by
  induction chars with
  | nil => rfl
  | cons c chars ih =>
      by_cases hc : c = '\r'
      · subst hc
        rw [unix_return, List.takeWhile_cons_of_pos hreturn, unix_return, ih]
      · rw [unix_cons hc]
        by_cases hp : p c
        · rw [List.takeWhile_cons_of_pos hp, List.takeWhile_cons_of_pos hp, unix_cons hc, ih]
        · rw [List.takeWhile_cons_of_neg hp, List.takeWhile_cons_of_neg hp]
          rfl

/-- A class that line feeds belong to does not end between a return and its line feed. -/
theorem Paired.takeWhile (hnewline : p '\n') (h : Paired chars) :
    Paired (chars.takeWhile p) := by
  have hany := head?_any_dropWhile p chars
  rw [← List.takeWhile_append_dropWhile (p := p) (l := chars)] at h
  refine h.of_append fun hhead => ?_
  rw [hhead, Option.any_some, hnewline] at hany
  cases hany

end Text

namespace Parser

/-- Spaces at both ends can be dropped before or after the returns. -/
theorem trimSpaces_unix {chars : List Char} (h : Paired chars) :
    trimSpaces (unix chars) = unix (trimSpaces chars) := by
  have hfront := Text.dropWhile_unix_of_paired (p := fun c => c == ' ' || c == '\t') rfl rfl h
  have hback := Text.dropWhile_unix_reverse (p := fun c => c == ' ' || c == '\t') rfl rfl
    (h.of_suffix (List.dropWhile_suffix fun c => c == ' ' || c == '\t'))
  simp only [trimSpaces, hfront, hback, Text.unix_reverse]

/-- Returns are paired without the spaces at both ends. -/
theorem paired_trimSpaces {chars : List Char} (h : Paired chars) : Paired (trimSpaces chars) := by
  have hrest := h.of_suffix (List.dropWhile_suffix fun c => c == ' ' || c == '\t')
  rw [trimSpaces]
  generalize chars.dropWhile (fun c => c == ' ' || c == '\t') = rest at hrest ⊢
  have hsplit : rest =
      (rest.reverse.dropWhile fun c => c == ' ' || c == '\t').reverse ++
        (rest.reverse.takeWhile fun c => c == ' ' || c == '\t').reverse := by
    rw [← List.reverse_append, List.takeWhile_append_dropWhile, List.reverse_reverse]
  rw [hsplit] at hrest
  refine hrest.of_append fun hhead => ?_
  have hmem := List.mem_reverse.mp (List.mem_of_head? hhead)
  exact absurd (List.mem_takeWhile_imp hmem) (by decide)

/-- Whether a text is empty does not depend on returns. -/
theorem nonempty?_unix {chars : List Char} (h : Paired chars) :
    nonempty? (unix chars) = (nonempty? chars).map Text.toUnix := by
  rcases hchars : chars with _ | ⟨c, rest⟩
  · rfl
  · have hne : unix (c :: rest) ≠ [] := by
      rw [← hchars]
      intro hnil
      rw [h.unix_eq_nil.mp hnil] at hchars
      cases hchars
    simp [nonempty?, hne, Text.toUnix]

/-- What stands behind the first colon. -/
theorem drop_takeWhile_unix (chars : List Char) :
    (unix chars).drop ((unix (chars.takeWhile (· != ':'))).length + 1) =
      unix (chars.drop ((chars.takeWhile (· != ':')).length + 1)) := by
  have hany := Text.head?_any_dropWhile (· != ':') chars
  have hsplit := List.takeWhile_append_dropWhile (p := (· != ':')) (l := chars)
  generalize chars.takeWhile (· != ':') = key at hsplit ⊢
  generalize chars.dropWhile (· != ':') = rest at hany hsplit
  subst hsplit
  rcases rest with _ | ⟨c, rest⟩
  · rw [List.append_nil, List.drop_eq_nil_of_le (Nat.le_succ _),
      List.drop_eq_nil_of_le (Nat.le_succ _)]
    rfl
  · obtain rfl : c = ':' := by simpa using hany
    rw [Text.unix_append, unix_cons (by decide), ← List.drop_drop, ← List.drop_drop,
      List.drop_left, List.drop_left]
    rfl

/-- A comment is retold if its body and its span are. -/
theorem commentOf_unix {tag : String} {mark : Option Char} {body : List Char} {span span' : Span}
    (htag : Text.toUnix tag = tag) (hbody : Paired body) (hspan : span' = retell t.retelling span) :
    commentOf tag mark (unix body) span' = retell t.retelling (commentOf tag mark body span) := by
  subst hspan
  have hsame : ∀ kind, (⟨kind, tag, nonempty? (unix body), none, none,
      retell t.retelling span⟩ : Comment) =
        retell t.retelling ⟨kind, tag, nonempty? body, none, none, span⟩ := by
    intro kind
    rw [nonempty?_unix hbody]
    conv_lhs => rw [← htag]
    rfl
  unfold commentOf
  split
  · exact hsame _
  · have hkey := hbody.takeWhile (p := (· != ':')) rfl
    dsimp only
    rw [Text.takeWhile_unix (p := (· != ':')) rfl, drop_takeWhile_unix, trimSpaces_unix hkey,
      nonempty?_unix (paired_trimSpaces hkey), nonempty?_unix (hbody.drop _)]
    conv_lhs => rw [← htag]
    rfl
  · exact hsame _

end Parser

/-- The comment is the same without its returns, and so is the place where it ends. -/
theorem DosText.back_comment (hc : t.start ≤ c) :
    (t.back c).comment = retell t.retelling c.comment ∧
      ((t.back c).advance (Scan.commentTag (t.back c).rest).1).advance
          (Scan.commentText ((t.back c).rest.drop (Scan.commentTag (t.back c).rest).1)) =
        t.back ((c.advance (Scan.commentTag c.rest).1).advance
          (Scan.commentText (c.rest.drop (Scan.commentTag c.rest).1))) := by
  have hpaired := paired_rest hc
  have htag : Scan.commentTag (t.back c).rest = Scan.commentTag c.rest :=
    Scan.commentTag_unix hpaired
  have hfree := (Scan.taken_commentTag c.rest).returnFree (by decide)
  rw [Cursor.comment, Cursor.comment, htag]
  generalize Scan.commentTag c.rest = scanned at hfree ⊢
  obtain ⟨tag, mark⟩ := scanned
  have hbody := hc.trans (Cursor.le_advance hfree.le_length)
  have hdrop : (t.back c).rest.drop tag = unix (c.rest.drop tag) := hfree.drop_unix
  have hrest : (t.back (c.advance tag)).rest = unix (c.rest.drop tag) := by
    rw [back_rest, Cursor.advance_rest]
  have htext := Scan.commentText_unix (hpaired.drop tag)
  have hlen : Scan.commentText (c.rest.drop tag) ≤ (c.advance tag).rest.length := by
    rw [Cursor.advance_rest]
    exact (Scan.commentText_le_statement _).trans (Scan.statement_le_length _)
  have hend := back_advance hbody hlen
  rw [Cursor.advance_rest] at hend
  simp only [back_advance_of_free hc hfree, hdrop, hrest, htext, ← Text.unix_take, hend,
    back_textBetween hfree, Cursor.advance_rest, and_true]
  exact Parser.commentOf_unix (toUnix_textBetween hfree)
    (Scan.paired_commentText (hpaired.drop tag)) rfl

namespace Parser

/-- A comment mirrors itself. -/
theorem comment_mirrors (hc : t.start ≤ c) : Mirrors t s c comment comment := by
  have htag := (Scan.inline_commentTag c.rest).le_length
  have htext : Scan.commentText (c.rest.drop (Scan.commentTag c.rest).1) ≤
      (c.advance (Scan.commentTag c.rest).1).rest.length := by
    rw [Cursor.advance_rest]
    exact (Scan.commentText_le_statement _).trans (Scan.statement_le_length _)
  obtain ⟨hcomment, hend⟩ := DosText.back_comment hc
  refine .of_run comment_run ?_
    ((hc.trans (Cursor.le_advance htag)).trans (Cursor.le_advance htext))
  rw [comment_run, hcomment, hend]

/-! ### Statements -/

/-- An interpolation starts with a dollar sign before a parenthesis. -/
theorem startsInterpolation_cons (c : Char) (chars : List Char) :
    Scan.startsInterpolation (c :: chars) = (c == '$' && chars.head? == some '(') := by
  rw [Bool.eq_iff_iff, Scan.startsInterpolation_iff]
  simp [List.head?_eq_some_iff]

/-- A part of a text has an interpolation whether its returns are left out or not: no return stands
between the characters that open one. -/
theorem holdsInterpolation_unix_take {chars : List Char} (h : Paired chars) (n : Nat) :
    holdsInterpolation (unix (chars.take n)) = holdsInterpolation (chars.take n) := by
  induction chars generalizing n with
  | nil => simp
  | cons c chars ih =>
      rcases n with _ | n
      · rfl
      · have hnext := ih h.of_cons n
        rw [List.take_succ_cons]
        by_cases hc : c = '\r'
        · subst hc
          rw [Text.unix_return, hnext]
          rfl
        · have hopen : ((unix (chars.take n)).head? == some '(') =
              ((chars.take n).head? == some '(') := by
            rcases h.of_cons.cases with rfl | ⟨tail, rfl⟩ | ⟨x, tail, rfl, hx⟩
            · simp
            · rcases n with _ | _ | n <;> rfl
            · rcases n with _ | n
              · rfl
              · rw [List.take_succ_cons, unix_cons hx]
                rfl
          rw [unix_cons hc, holdsInterpolation, holdsInterpolation, hnext,
            startsInterpolation_cons, startsInterpolation_cons, hopen]

/-- The recovery of a statement mirrors itself. -/
theorem recoverStatement_mirrors {error : ParseError} (hc : t.start ≤ c) :
    Mirrors t s c (recoverStatement error) (recoverStatement (t.error error)) := by
  have hpaired := DosText.paired_rest hc
  have hlen := Scan.statement_le_length c.rest
  have hscan : Scan.statement (t.back c).rest = unixCount c.rest (Scan.statement c.rest) :=
    Scan.statement_unix hpaired
  have htrimmed : Scan.trimmedStatement (t.back c).rest =
      unixCount c.rest (Scan.trimmedStatement c.rest) := Scan.trimmedStatement_unix hpaired
  have htrimmedLen := (Scan.trimmedStatement_le_statement c.rest).trans hlen
  have hmessage : (t.error error).message = unixMessage error.message :=
    error.cause.message_unix
  rw [recoverStatement, recoverStatement, mirrors_here_bind, hscan, htrimmed, hmessage]
  dsimp only
  rw [DosText.back_offsetAfter hc hlen, DosText.back_offsetAfter hc htrimmedLen]
  refine .log_bind rfl ?_
  rw [mirrors_take_bind hc hlen rfl]
  refine (Mirrors.span rfl rfl (hc.trans (Cursor.le_advance hlen))).bind fun trimmed d hd => ?_
  exact .pure (Statement.error ⟨error.message, trimmed⟩) hd

section Statements

variable {arguments arguments' : Bool → Parser (List Argument)}
  (harguments : ∀ inMacro c, t.start ≤ c →
    Mirrors t s c (arguments inMacro) (arguments' inMacro))

include harguments

/-- A macro line mirrors itself if its arguments do. -/
theorem macroStatement_mirrors (hdollar : c.peek = some '$') (hc : t.start ≤ c) :
    Mirrors t s c (macroStatement (arguments true)) (macroStatement (arguments' true)) := by
  rw [macroStatement, macroStatement, mirrors_here_bind]
  refine (macroCommand_mirrors harguments true hdollar hc).bind fun command d hd => ?_
  have hspan : (retell t.retelling command).span = retell t.retelling command.span :=
    command.span_retell t.retelling
  rw [hspan]
  refine .slice_bind hc rfl rfl fun e n he => ?_
  rw [holdsInterpolation_unix_take (DosText.paired_rest he)]
  split
  · exact .log_bind rfl (.pure (Statement.macroCommand command) hd)
  · exact .pure (Statement.macroCommand command) hd

/-- A statement mirrors itself if its arguments do. -/
theorem statement_mirrors (hc : t.start ≤ c) (hreturn : c.peek ≠ some '\r') :
    Mirrors t s c (statement arguments) (statement arguments') := by
  rw [statement, statement, mirrors_here_bind, DosText.back_peek hc hreturn]
  split
  · exact (comment_mirrors hc).bind fun comment d hd => .pure (Statement.comment comment) hd
  · rename_i hdollar
    exact macroStatement_mirrors harguments hdollar hc
  · split
    · exact (command_mirrors harguments false hc hreturn).bind fun command d hd =>
        .pure (Statement.command command) hd
    · exact .failAt rfl rfl ((DosText.back_charEnd hc).resolve_right hreturn)
  · exact .failAt rfl rfl rfl

/-- So does a statement that is skipped if it cannot be read. -/
theorem anyStatement_mirrors (hc : t.start ≤ c) (hreturn : c.peek ≠ some '\r') :
    Mirrors t s c (anyStatement arguments) (anyStatement arguments') := by
  rw [anyStatement, anyStatement, mirrors_here_bind]
  refine Mirrors.bind (Mirrors.orElse (statement_mirrors harguments hc hreturn) fun error => ?_)
    fun statement d hd => ?_
  · rw [mirrors_settings_bind]
    split
    · exact .fail error
    · exact recoverStatement_mirrors hc
  · have hkind : (retell t.retelling statement).kind = statement.kind := by
      cases statement <;> rfl
    rw [Statement.span_retell, hkind]
    exact .log_bind rfl (.pure statement hd)

/-- The statements of a text are those of the text without its returns. -/
theorem statements_mirrors {fuel fuel' : Nat} (hc : t.start ≤ c) :
    Mirrors t s c (statements arguments fuel) (statements arguments' fuel') := by
  induction fuel generalizing c fuel' with
  | zero => exact .breakOff _
  | succ fuel ih =>
      rcases fuel' with _ | fuel'
      · exact .breakOffUnix _
      · have hstart := hc.trans c.le_skipTrivia
        have hreturn := DosText.peek_skipTrivia c
        rw [statements, statements, mirrors_skipTrivia_bind hc, mirrors_here_bind,
          DosText.back_peek hstart hreturn]
        split
        · exact .pure [] hstart
        · rename_i hpeek
          rw [mirrors_take_one_bind hstart hpeek (by decide)]
          exact ih (hstart.trans (Cursor.le_advance_of_peek hpeek))
        · refine (anyStatement_mirrors harguments hstart hreturn).bind fun first d hd => ?_
          exact (ih hd).bind fun more d hd => .pure (first :: more) hd

end Statements

end Parser

end Mcfunction
