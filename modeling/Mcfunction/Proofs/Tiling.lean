import Mathlib.Data.List.DropRight
import Mcfunction.Proofs.Tiling.Scan

/-!
# Tokens Tile the Text

The flat reading of a text loses nothing and repeats nothing. If it reaches the end of the text, the
tokens stand side by side from the first byte to the last. If it does not, then because of a string
or an interpolation that cannot be read, and the text before that is tiled in the same way.

The reading is told how many tokens it may find. Each token takes at least one character, so the
number of characters is always enough, and a larger number changes nothing.

## Main results

* `Token.exists_row_of_ok`, `Token.exists_row_of_error`: the tokens of a text are a row up to its
  end, or up to a place where no token can be read.
* `Token.Row.cut`: the row in front of such a place does not depend on what follows.
* `Token.ofText_tiles`: the tokens of every text tile it, or tile what stands before a fault.
-/

namespace Mcfunction

/-- Moving within the front of a text takes none of what follows. -/
theorem Cursor.advance_append {offset n : Nat} {chars : List Char} (hn : n ≤ chars.length)
    (tail : List Char) : (Cursor.mk offset chars).advance n =
      ⟨((Cursor.mk offset (chars ++ tail)).advance n).offset, chars.drop n⟩ := by
  have hrest := (Cursor.mk offset chars).advance_rest n
  have hoff := Cursor.advance_offset (c := ⟨offset, chars⟩) hn
  have hoff' := Cursor.advance_offset (c := ⟨offset, chars ++ tail⟩) (n := n)
    (by rw [List.length_append]; omega)
  rw [List.take_append_of_le_length hn] at hoff'
  cases hcut : (Cursor.mk offset chars).advance n
  simp_all

/-! ### Tilings -/

namespace Token

/-- The tokens stand side by side and cover the text, and no comment is a token unless a statement
can start there. -/
structure Tiling (text : String) (tokens : List Token) : Prop where
  /-- No token is empty. -/
  nonempty : ∀ token ∈ tokens, token.text ≠ "" ∧ token.span.start < token.span.stop
  /-- Both ends of a token are places of the text, and its text stands between them. -/
  slice : ∀ token ∈ tokens, token.span.slice? text = some token.text
  /-- The first token starts where the text does. -/
  first : ∀ token, tokens.head? = some token → token.span.start = 0
  /-- Each other token starts where the one before it ends. -/
  adjoining : ∀ front token next back, tokens = front ++ token :: next :: back →
    next.span.start = token.span.stop
  /-- The last token ends where the text does. -/
  last : ∀ token, tokens.getLast? = some token → token.span.stop = text.utf8ByteSize
  /-- The tokens one after another are the text. -/
  joined : String.join (tokens.map Token.text) = text
  /-- On the line of a comment there are blanks and continuations only before it. -/
  comments : ∀ front token back, tokens = front ++ token :: back → token.kind = .comment →
    ∀ blank ∈ front.rtakeWhile (·.kind ≠ .newline),
      blank.kind = .whitespace ∨ blank.kind = .continuation

variable {lineStart after : Bool} {c d : Cursor} {tokens : List Token} {text : String}

/-! ### Rows -/

/-- A comment starts only where a statement can start. -/
theorem lineStart_of_comment {x : Char} {tail : List Char} {n : Nat}
    (h : scan lineStart x tail = .ok (.comment, n)) : lineStart = true := by
  revert h
  fun_cases scan lineStart x tail with
  | case3 chars _ _ hcomment =>
      intro _
      exact (Bool.and_eq_true _ _ ▸ hcomment).2
  | case4 chars =>
      intro h
      cases hscan : Scan.interpolation chars <;> rw [hscan] at h <;> cases h
  | case6 chars =>
      intro h
      cases hscan : Scan.quoted chars <;> rw [hscan] at h <;> cases h
  | case11 chars =>
      intro h
      obtain ⟨-, hmark⟩ := @longest_kind _ lineStart _ _ _ (Except.ok.inj h)
      cases hmark
  | _ =>
      intro h
      cases h

namespace Row

theorem le (h : Row lineStart c tokens after d) : c ≤ d := by
  induction h with
  | nil => exact le_rfl
  | cons _ _ _ hlen _ ih => exact (Cursor.le_advance hlen).trans ih

/-- Whether a statement can start at the end of a row is what the tokens of the row say. -/
theorem after_eq (h : Row lineStart c tokens after d) :
    after = tokens.foldl (fun start token => lineStartAfter start token.kind) lineStart := by
  induction h with
  | nil => rfl
  | cons _ _ _ _ _ ih => exact ih

/-- A row is a row to any of its places and a row from there. -/
theorem of_append {front back : List Token} (h : Row lineStart c (front ++ back) after d) :
    ∃ between e, Row lineStart c front between e ∧ Row between e back after d := by
  induction front generalizing lineStart c with
  | nil => exact ⟨lineStart, c, .nil, h⟩
  | cons first front ih =>
      cases h with
      | cons hrest hscan hpos hlen h =>
          obtain ⟨between, e, hfront, hback⟩ := ih h
          exact ⟨between, e, .cons hrest hscan hpos hlen hfront, hback⟩

/-- Where a statement can start, there are blanks and continuations only on the line before it. -/
theorem blank_of_lineStart (tokens : List Token)
    (h : tokens.foldl (fun start token => lineStartAfter start token.kind) lineStart = true) :
    ∀ blank ∈ tokens.rtakeWhile (·.kind ≠ .newline),
      blank.kind = .whitespace ∨ blank.kind = .continuation := by
  induction tokens using List.reverseRecOn with
  | nil => simp
  | append_singleton tokens token ih =>
      rw [List.foldl_append, List.foldl_cons, List.foldl_nil] at h
      by_cases hnewline : token.kind = .newline
      · rw [List.rtakeWhile_concat_neg _ _ _ (by simpa using hnewline)]
        exact fun blank hblank => absurd hblank List.not_mem_nil
      · rw [List.rtakeWhile_concat_pos _ _ _ (by simpa using hnewline)]
        intro blank hblank
        have hkind : (token.kind = .whitespace ∨ token.kind = .continuation) ∧
            tokens.foldl (fun start token => lineStartAfter start token.kind) lineStart = true := by
          cases hk : token.kind <;> simp_all [lineStartAfter]
        rcases List.mem_append.mp hblank with hblank | hblank
        · exact ih hkind.2 blank hblank
        · rw [List.mem_singleton.mp hblank]
          exact hkind.1

/-- The tokens of a row are not empty, and each stands where it says. -/
theorem slice? (htext : Cursor.start text ≤ c) (h : Row lineStart c tokens after d) :
    ∀ token ∈ tokens, token.text ≠ "" ∧ token.span.slice? text = some token.text := by
  induction h with
  | nil => exact List.forall_mem_nil _
  | @cons _ _ c _ x tail kind n _ hrest hscan hpos hlen _ ih =>
      refine List.forall_mem_cons.mpr ⟨⟨?_, ?_⟩, ih (htext.trans (Cursor.le_advance hlen))⟩
      · obtain ⟨k, rfl⟩ := Nat.exists_eq_succ_of_ne_zero hpos.ne'
        rw [Cursor.text, hrest, List.take_succ_cons]
        simp
      · refine Cursor.slice?_spanTo htext ?_ (Cursor.advance_offset hlen)
        rw [Cursor.advance_rest, List.take_append_drop]

/-- The texts of the tokens of a row are the text that the row stands on. -/
theorem join_text (h : Row lineStart c tokens after d) :
    String.ofList c.rest = String.join (tokens.map Token.text) ++ String.ofList d.rest := by
  induction h with
  | nil => simp
  | @cons _ _ c _ x tail kind n _ hrest hscan hpos hlen _ ih =>
      rw [List.map_cons, String.join_cons, String.append_assoc, ← ih, Cursor.text,
        Cursor.advance_rest, ← String.ofList_append, List.take_append_drop]

/-- The tokens from the start of a text to its end tile it. -/
theorem tiling (hend : d.rest = []) (h : Row true (.start text) tokens after d) :
    Tiling text tokens where
  nonempty token hmem := ⟨(h.slice? le_rfl token hmem).1, (h.ordered.1 token hmem).2⟩
  slice token hmem := (h.slice? le_rfl token hmem).2
  first token hhead := by
    obtain ⟨back, rfl⟩ := List.head?_eq_some_iff.mp hhead
    cases h
    rfl
  adjoining := by
    rintro front token next back rfl
    obtain ⟨between, e, -, hback⟩ := h.of_append
    cases hback with
    | cons _ _ _ _ hnext =>
        cases hnext
        rfl
  last token hlast := by
    obtain ⟨front, rfl⟩ := List.getLast?_eq_some_iff.mp hlast
    obtain ⟨between, e, -, hback⟩ := h.of_append
    have hstop := Cursor.offset_of_rest_nil h.le hend
    cases hback with
    | cons _ _ _ _ hnext =>
        cases hnext
        exact hstop
  joined := by
    have hjoin := h.join_text
    rw [hend, String.ofList_nil, String.append_empty, Cursor.start, String.ofList_toList] at hjoin
    exact hjoin.symm
  comments := by
    rintro front token back rfl hcomment
    obtain ⟨between, e, hfront, hback⟩ := h.of_append
    cases hback with
    | cons _ hscan =>
        subst hcomment
        have hstart := lineStart_of_comment hscan
        rw [hfront.after_eq] at hstart
        exact blank_of_lineStart front hstart

end Row

/-! ### Readings -/

/-- A reading is a row of tokens to the end of the text, or to a place where no token can be
read. -/
theorem exists_row (lineStart : Bool) {fuel : Nat} (hfuel : c.rest.length ≤ fuel) :
    ∃ tokens after d, Row lineStart c tokens after d ∧
      (d.rest = [] ∧ ofCursor lineStart fuel c = .ok tokens ∨
        ∃ x tail error, d.rest = x :: tail ∧ scan after x tail = .error error ∧
          ofCursor lineStart fuel c = .error (error.at d)) := by
  induction fuel generalizing lineStart c with
  | zero =>
      have hrest := List.eq_nil_of_length_eq_zero (Nat.le_zero.mp hfuel)
      exact ⟨[], lineStart, c, .nil, .inl ⟨hrest, rfl⟩⟩
  | succ fuel ih =>
      rcases hrest : c.rest with _ | ⟨x, tail⟩
      · exact ⟨[], lineStart, c, .nil, .inl ⟨hrest, by rw [ofCursor, hrest]⟩⟩
      · rcases hscan : scan lineStart x tail with error | ⟨kind, n⟩
        · refine ⟨[], lineStart, c, .nil, .inr ⟨x, tail, error, hrest, hscan, ?_⟩⟩
          rw [ofCursor, hrest]
          simp only [hscan]
        · obtain ⟨hpos, hlen⟩ := scan_bounds hscan
          have hlen : n ≤ c.rest.length := by rwa [hrest]
          have hnext : (c.advance n).rest.length ≤ fuel := by
            rw [Cursor.advance_rest, List.length_drop]
            omega
          have hstep : ofCursor lineStart (fuel + 1) c =
              (ofCursor (lineStartAfter lineStart kind) fuel (c.advance n)).map
                (⟨kind, c.text n, c.spanTo (c.advance n)⟩ :: ·) := by
            rw [ofCursor, hrest]
            simp only [hscan]
            rfl
          obtain ⟨tokens, after, d, hrow, hresult⟩ :=
            ih (lineStartAfter lineStart kind) hnext
          refine ⟨_, after, d, .cons hrest hscan hpos hlen hrow, ?_⟩
          rw [hstep]
          rcases hresult with ⟨hend, hok⟩ | ⟨y, tail', error, hd, hfault, herror⟩
          · exact .inl ⟨hend, by rw [hok]; rfl⟩
          · exact .inr ⟨y, tail', error, hd, hfault, by rw [herror]; rfl⟩

/-! ### Texts that end before a fault -/

/-- A row in front of a quote or a dollar sign is a row of the text that ends there. -/
theorem Row.cut {x : Char} {tail : List Char} (hx : Scan.isOpener x) (hd : d.rest = x :: tail)
    {chars : List Char} (hchars : c.rest = chars ++ d.rest) (h : Row lineStart c tokens after d) :
    Row lineStart ⟨c.offset, chars⟩ tokens after ⟨d.offset, []⟩ := by
  induction h generalizing chars with
  | nil =>
      obtain rfl : chars = [] := List.self_eq_append_left.mp hchars
      exact .nil
  | @cons _ _ c d y rest kind n _ hrest hscan hpos hlen hrow ih =>
      obtain ⟨chars', hnext, -⟩ := hrow.le
      have hsplit : chars = c.rest.take n ++ chars' := by
        have htail : chars ++ d.rest = c.rest.take n ++ chars' ++ d.rest := by
          rw [← hchars, List.append_assoc, ← hnext, Cursor.advance_rest, List.take_append_drop]
        exact List.append_cancel_right htail
      have hfront : n ≤ chars.length := by
        rw [hsplit, List.length_append, List.length_take_of_le hlen]
        exact Nat.le_add_right _ _
      have hadvance : (Cursor.mk c.offset chars).advance n = ⟨(c.advance n).offset, chars'⟩ := by
        have hdrop : chars.drop n = chars' := by
          rw [hsplit]
          exact List.drop_left' (List.length_take_of_le hlen)
        rw [Cursor.advance_append hfront d.rest, ← hchars, hdrop]
      have hrow := ih hd hnext
      rw [← hadvance] at hrow
      obtain ⟨z, front, rfl⟩ := List.exists_cons_of_length_pos (hpos.trans_le hfront)
      obtain ⟨rfl, rfl⟩ : y = z ∧ rest = front ++ d.rest := List.cons.inj (hrest.symm.trans hchars)
      rw [hd] at hscan
      have htext : (Cursor.mk c.offset (y :: front)).text n = c.text n := by
        rw [Cursor.text, Cursor.text, hchars, List.take_append_of_le_length hfront]
      have hspan : (Cursor.mk c.offset (y :: front)).spanTo
          ((Cursor.mk c.offset (y :: front)).advance n) = c.spanTo (c.advance n) := by
        rw [hadvance]
        rfl
      rw [← htext, ← hspan]
      exact .cons rfl (scan_append_cons hx hscan hfront) hpos hfront hrow

/-- Every text is read to an end. If its tokens can be read, they tile it; if not, then a string or
an interpolation in it cannot be read, and the text before that can and is tiled by its tokens. -/
theorem ofText_tiles (text : String) :
    (∀ fuel, text.toList.length ≤ fuel → ofCursor true fuel (.start text) = ofText text) ∧
    (∀ tokens, ofText text = .ok tokens → Tiling text tokens) ∧
    ∀ error, ofText text = .error error → ∃ before rest fault,
      text = before ++ String.ofList rest ∧ error.cause = .lexical fault ∧
      Scan.Unreadable fault rest ∧ ∃ tokens, ofText before = .ok tokens ∧ Tiling before tokens := by
  obtain ⟨tokens, after, d, hrow, hresult⟩ :=
    exists_row true (c := .start text) (le_refl text.toList.length)
  have hread : ofText text = ofCursor true text.toList.length (.start text) := rfl
  rw [← hread] at hresult
  refine ⟨fun fuel hfuel => ofCursor_eq hfuel le_rfl, ?_, ?_⟩
  · intro tokens' htokens
    rcases hresult with ⟨hend, hok⟩ | ⟨x, tail, fault, -, -, hfault⟩
    · rw [hok] at htokens
      cases htokens
      exact hrow.tiling hend
    · rw [hfault] at htokens
      cases htokens
  · intro error herror
    rcases hresult with ⟨-, hok⟩ | ⟨x, tail, fault, hd, hscan, hfault⟩
    · rw [hok] at herror
      cases herror
    · rw [hfault] at herror
      cases herror
      have hunreadable := Scan.unreadable_of_error hscan
      obtain ⟨_, _, heq, hopener⟩ := hunreadable.exists_opener
      obtain ⟨rfl, rfl⟩ := List.cons.inj heq
      obtain ⟨chars, hchars, hoff⟩ := hrow.le
      have hcut := hrow.cut hopener hd hchars
      have hstart : (⟨(Cursor.start text).offset, chars⟩ : Cursor) =
          .start (String.ofList chars) := congrArg (Cursor.mk 0) String.toList_ofList.symm
      rw [hstart] at hcut
      refine ⟨String.ofList chars, x :: tail, fault.fault, ?_, rfl, hunreadable, tokens, ?_,
        hcut.tiling rfl⟩
      · rw [← hd, ← String.ofList_append, ← hchars]
        exact String.ofList_toList.symm
      · exact hcut.ofCursor_eq le_rfl rfl

end Token

end Mcfunction
