import Mcfunction.Proofs.Split
import Mcfunction.Tree.Sexp

/-!
# The Text of a View

A view of a document is written in lines. Each line holds one node: two spaces for each node that
is open there, the name and the kind of the node with its place if places are wanted, and the
closing parentheses of all nodes that end with it. A node ends with the last node in it, so the
nodes that are open before a line are the ones around its node.

## Main results

* `Sexp.laid_render`: the text of a view is one line for each node, indented by what is open.
-/

namespace Mcfunction

namespace Sexp

/-! ### Nodes in the order of their lines -/

/-- What a line says of its node, and how many nodes are around it. -/
structure Entry where
  /-- The number of nodes around the node. -/
  depth : Nat
  /-- The name of its field. -/
  field : Option String
  /-- Its kind. -/
  kind : String
  /-- Its place. -/
  span : Span

mutual

/-- A node with `depth` nodes around it and the nodes in it, each before those in it. -/
def entries (depth : Nat) : Sexp → List Entry
  | .node field kind span children =>
    ⟨depth, field, kind, span⟩ :: allEntries (depth + 1) children

/-- Nodes with `depth` nodes around them and the nodes in them. -/
def allEntries (depth : Nat) : List Sexp → List Entry
  | [] => []
  | child :: children => child.entries depth ++ allEntries depth children

end

/-- The text of a node without its parentheses behind it. -/
def Entry.head (index : Option LineIndex) (entry : Entry) : List Char :=
  (Sexp.head index entry.field entry.kind entry.span).toList

/-- The lines of several nodes, when `level` nodes are open before the first of them: a line for
each node, indented by two spaces for each open node. Behind the node stand the parentheses that
close it and nodes around it, and in the end all are closed. -/
inductive Lines (index : Option LineIndex) : Nat → List Entry → List (List Char) → Prop
  /-- No line is left, and no node is open. -/
  | nil : Lines index 0 [] []
  /-- A line, and those after it. -/
  | cons {entry entries closed lines} : closed ≤ entry.depth + 1 →
      Lines index (entry.depth + 1 - closed) entries lines →
      Lines index entry.depth (entry :: entries)
        ((List.replicate (2 * entry.depth) ' ' ++ entry.head index ++
          List.replicate closed ')') :: lines)

/-- How the text of a view is laid out. -/
structure Laid (index : Option LineIndex) (sexp : Sexp) (text : String) : Prop where
  /-- The lines of the text are the nodes of the view, one by one. -/
  lines : Lines index 0 (sexp.entries 0) (splitChars '\n' text.toList)
  /-- There is exactly one opening parenthesis on each line. -/
  opened : ∀ line ∈ splitChars '\n' text.toList, line.count '(' = 1
  /-- Each line is indented by two spaces for each parenthesis that is open before it. -/
  indented : ∀ front line back, splitChars '\n' text.toList = front ++ line :: back →
    2 * front.flatten.count '(' =
      2 * front.flatten.count ')' + (line.takeWhile (· = ' ')).length
  /-- All parentheses are closed. -/
  balanced : text.toList.count '(' = text.toList.count ')'

/-! ### Names -/

/-- A name has letters, digits, underscores and minus signs only. -/
def IsName (text : String) : Prop :=
  text.toList.all Scan.isWordChar

/-- All fields and kinds of a view are names. -/
inductive Named : Sexp → Prop
  /-- A node with the nodes in it. -/
  | node {field kind span children} : (∀ name, field = some name → IsName name) → IsName kind →
      (∀ child ∈ children, Named child) → Named (.node field kind span children)

/-- The field and the kind of a node are names. -/
def Entry.Named (entry : Entry) : Prop :=
  (∀ name, entry.field = some name → IsName name) ∧ IsName entry.kind

mutual

/-- The entries of a view have names if the view has. -/
theorem Named.entries : ∀ {sexp : Sexp} {depth : Nat}, sexp.Named →
    ∀ entry ∈ sexp.entries depth, entry.Named
  | .node field kind span children, depth, h => by
      cases h with
      | node hfield hkind hchildren =>
          rw [Sexp.entries]
          exact List.forall_mem_cons.mpr ⟨⟨hfield, hkind⟩, Named.allEntries hchildren⟩

/-- The entries of several views have names if each view has. -/
theorem Named.allEntries : ∀ {children : List Sexp} {depth : Nat},
    (∀ child ∈ children, child.Named) → ∀ entry ∈ Sexp.allEntries depth children, entry.Named
  | [], depth, h => by
      rw [Sexp.allEntries]
      exact List.forall_mem_nil _
  | child :: children, depth, h => by
      obtain ⟨hchild, hchildren⟩ := List.forall_mem_cons.mp h
      rw [Sexp.allEntries]
      exact List.forall_mem_append.mpr ⟨hchild.entries, Named.allEntries hchildren⟩

end

/-! ### Places -/

/-- A line and a column as text. -/
def placeText (place : Nat × Nat) : List Char :=
  Nat.toDigits 10 place.1 ++ ',' :: ' ' :: Nat.toDigits 10 place.2

/-- How a range is printed, character by character. -/
theorem rangeText_toList (index : LineIndex) (span : Span) :
    (rangeText index span).toList = ' ' :: '[' :: (placeText (index.lineColumn span.start) ++
      ']' :: ' ' :: '-' :: ' ' :: '[' :: (placeText (index.lineColumn span.stop) ++ [']'])) := by
  simp [rangeText, placeText]
  rfl

/-- A place holds digits, commas and spaces only. -/
theorem placeText_ne {place : Nat × Nat} {x : Char} (hdigit : x.isDigit = false)
    (hcomma : x ≠ ',') (hspace : x ≠ ' ') : x ∉ placeText place := by
  have hdigits : ∀ n, x ∉ Nat.toDigits 10 n := by
    intro n hx
    rw [Nat.isDigit_of_mem_toDigits (by decide) (by decide) hx] at hdigit
    cases hdigit
  simp [placeText, hdigits, hcomma, hspace]

/-- The range of a node holds neither parentheses nor line breaks. -/
theorem rangeText_ne (index : LineIndex) (span : Span) {x : Char}
    (hx : x = '(' ∨ x = ')' ∨ x = '\n') : x ∉ (rangeText index span).toList := by
  rw [rangeText_toList]
  rcases hx with rfl | rfl | rfl <;> simp [placeText_ne]

/-! ### Heads -/

variable {index : Option LineIndex} {entry : Entry}

/-- A name has no character that is not for words. -/
theorem IsName.ne {name : String} {x : Char} (h : IsName name) (hx : Scan.isWordChar x = false) :
    x ∉ name.toList := by
  intro hmem
  rw [List.all_eq_true.mp h x hmem] at hx
  cases hx

/-- What stands before the kind of a node. -/
def label (field : Option String) : List Char :=
  match field with
  | some field => field.toList ++ [':', ' ']
  | none => []

/-- What stands behind the kind of a node. -/
def range (index : Option LineIndex) (span : Span) : List Char :=
  match index with
  | some index => (rangeText index span).toList
  | none => []

theorem Entry.head_eq (index : Option LineIndex) (entry : Entry) :
    entry.head index =
      label entry.field ++ '(' :: (entry.kind.toList ++ range index entry.span) := by
  obtain ⟨depth, field, kind, span⟩ := entry
  rcases field with _ | field <;> rcases index with _ | index <;>
    simp [Entry.head, Sexp.head, label, range]

/-- A range has neither parentheses nor line feeds. -/
theorem range_ne (index : Option LineIndex) (span : Span) {x : Char}
    (hx : x = '(' ∨ x = ')' ∨ x = '\n') : x ∉ range index span := by
  rcases index with _ | index
  · exact List.not_mem_nil
  · exact rangeText_ne index span hx

/-- The label of a field has only characters of words, a colon and a blank. -/
theorem label_ne {field : Option String} (h : ∀ name, field = some name → IsName name) {x : Char}
    (hx : Scan.isWordChar x = false) (hcolon : x ≠ ':') (hspace : x ≠ ' ') :
    x ∉ label field := by
  rcases field with _ | name
  · exact List.not_mem_nil
  · simp [label, (h name rfl).ne hx, hcolon, hspace]

namespace Entry.Named

variable (h : entry.Named)

include h

/-- What is printed for one entry is one line. -/
theorem newline_notMem (index : Option LineIndex) : '\n' ∉ entry.head index := by
  have hlabel : '\n' ∉ label entry.field := label_ne h.1 rfl (by decide) (by decide)
  have hkind : '\n' ∉ entry.kind.toList := h.2.ne rfl
  rw [Entry.head_eq]
  simp [hlabel, hkind, range_ne]

/-- What is printed for one entry opens one parenthesis. -/
theorem count_open (index : Option LineIndex) : (entry.head index).count '(' = 1 := by
  rw [Entry.head_eq, List.count_append, List.count_cons_self, List.count_append,
    List.count_eq_zero.mpr (label_ne h.1 rfl (by decide) (by decide)),
    List.count_eq_zero.mpr (h.2.ne rfl), List.count_eq_zero.mpr (range_ne _ _ (.inl rfl))]

/-- It closes none by itself. -/
theorem count_close (index : Option LineIndex) : (entry.head index).count ')' = 0 := by
  have hlabel : ')' ∉ label entry.field := label_ne h.1 rfl (by decide) (by decide)
  have hkind : ')' ∉ entry.kind.toList := h.2.ne rfl
  rw [List.count_eq_zero, Entry.head_eq]
  simp [hlabel, hkind, range_ne]

/-- A node does not start with a space. -/
theorem exists_head (index : Option LineIndex) :
    ∃ x tail, entry.head index = x :: tail ∧ x ≠ ' ' := by
  rw [Entry.head_eq]
  rcases hfield : entry.field with _ | name
  · exact ⟨'(', _, rfl, by decide⟩
  · have hname := h.1 name hfield
    rcases hchars : name.toList with _ | ⟨x, chars⟩
    · exact ⟨':', _, by simp only [label, hchars]; rfl, by decide⟩
    · refine ⟨x, _, by simp only [label, hchars]; rfl, ?_⟩
      rintro rfl
      exact hname.ne rfl (hchars ▸ List.mem_cons_self)

end Entry.Named

/-! ### Lines and what is open -/

variable {level closing : Nat} {entries entries' : List Entry} {lines lines' : List (List Char)}
  {text text' : List Char}

/-- The open parentheses before a line are those of the lines before it that are not closed
there. -/
theorem Lines.split {front back : List (List Char)} (hnamed : ∀ entry ∈ entries, entry.Named)
    (h : Lines index level entries (front ++ back)) :
    ∃ level' entries', Lines index level' entries' back ∧ (∀ entry ∈ entries', entry.Named) ∧
      level + front.flatten.count '(' = level' + front.flatten.count ')' := by
  induction front generalizing level entries with
  | nil => exact ⟨level, entries, h, hnamed, rfl⟩
  | cons line front ih =>
      cases h with
      | @cons entry entries closed _ hclosed h =>
          obtain ⟨hentry, hnamed⟩ := List.forall_mem_cons.mp hnamed
          obtain ⟨level', entries', hback, hnamed', hcount⟩ := ih hnamed h
          refine ⟨level', entries', hback, hnamed', ?_⟩
          simp only [List.flatten_cons, List.count_append, hentry.count_open, hentry.count_close,
            List.count_replicate_self, List.count_replicate, Char.reduceBEq]
          simp only [Bool.false_eq_true, if_false]
          omega

/-- Each line opens one parenthesis. -/
theorem Lines.count_open (hnamed : ∀ entry ∈ entries, entry.Named)
    (h : Lines index level entries lines) : ∀ line ∈ lines, line.count '(' = 1 := by
  induction h with
  | nil => exact List.forall_mem_nil _
  | cons _ _ ih =>
      obtain ⟨hentry, hnamed⟩ := List.forall_mem_cons.mp hnamed
      refine List.forall_mem_cons.mpr ⟨?_, ih hnamed⟩
      simp [List.count_append, hentry.count_open, List.count_replicate]

/-- Each line is indented by two blanks for each parenthesis that is open. -/
theorem Lines.indented {front back : List (List Char)} {line : List Char}
    (hnamed : ∀ entry ∈ entries, entry.Named)
    (h : Lines index 0 entries (front ++ line :: back)) :
    2 * front.flatten.count '(' =
      2 * front.flatten.count ')' + (line.takeWhile (· = ' ')).length := by
  obtain ⟨level, entries', h, hnamed, hcount⟩ := h.split hnamed
  have hindent : (line.takeWhile (· = ' ')).length = 2 * level := by
    cases h with
    | cons =>
        obtain ⟨x, tail, hhead, hx⟩ := (hnamed _ List.mem_cons_self).exists_head index
        rw [List.append_assoc, List.takeWhile_append_of_pos (by simp), hhead]
        simp [hx]
  omega

/-! ### The layout of a view -/

/-- The text, with a line break before it and `closing` more parentheses behind it, is the lines of
the entries, and lines for what is still open may follow. -/
def Written (index : Option LineIndex) (level closing : Nat) (text : List Char)
    (entries : List Entry) : Prop :=
  ∃ lines, text ++ List.replicate closing ')' = lines.flatMap ('\n' :: ·) ∧
    (∀ line ∈ lines, '\n' ∉ line) ∧
    (closing ≤ level → ∀ entries' lines', Lines index (level - closing) entries' lines' →
      Lines index level (entries ++ entries') (lines ++ lines'))

/-- Texts that are written for some entries each are written for all of them. -/
theorem Written.append (h : Written index level 0 text entries)
    (h' : Written index level closing text' entries') :
    Written index level closing (text ++ text') (entries ++ entries') := by
  obtain ⟨lines, htext, hlines, hrow⟩ := h
  obtain ⟨lines', htext', hlines', hrow'⟩ := h'
  rw [List.replicate_zero, List.append_nil] at htext
  refine ⟨lines ++ lines', ?_, List.forall_mem_append.mpr ⟨hlines, hlines'⟩, ?_⟩
  · rw [List.append_assoc, htext', htext, List.flatMap_append]
  · intro hclosing rest restLines hrest
    rw [List.append_assoc, List.append_assoc]
    exact hrow (Nat.zero_le _) _ _ (hrow' hclosing rest restLines hrest)

theorem newline_toList (level : Nat) :
    (newline level).toList = '\n' :: List.replicate (2 * level) ' ' := by
  rw [newline, String.toList_ofList]

/-- A node without nodes in it is one line. -/
theorem Written.leaf (hentry : entry.Named) :
    Written index entry.depth closing
      ('\n' :: List.replicate (2 * entry.depth) ' ' ++ entry.head index ++ [')']) [entry] := by
  refine ⟨[List.replicate (2 * entry.depth) ' ' ++ entry.head index ++
    List.replicate (closing + 1) ')'], ?_, ?_, ?_⟩
  · simp [List.replicate_succ]
  · refine List.forall_mem_singleton.mpr ?_
    simp [hentry.newline_notMem]
  · intro hclosing rest lines hrest
    refine .cons (Nat.succ_le_succ hclosing) ?_
    rwa [Nat.add_sub_add_right]

/-- A node with nodes in it is a line and the lines of those. -/
theorem Written.around (hentry : entry.Named)
    (h : Written index (entry.depth + 1) (closing + 1) text entries) :
    Written index entry.depth closing
      ('\n' :: List.replicate (2 * entry.depth) ' ' ++ entry.head index ++ text ++ [')'])
      (entry :: entries) := by
  obtain ⟨lines, htext, hlines, hrow⟩ := h
  refine ⟨(List.replicate (2 * entry.depth) ' ' ++ entry.head index ++
    List.replicate 0 ')') :: lines, ?_, ?_, ?_⟩
  · rw [List.flatMap_cons, ← htext, List.replicate_succ]
    simp
  · refine List.forall_mem_cons.mpr ⟨?_, hlines⟩
    simp [hentry.newline_notMem]
  · intro hclosing rest restLines hrest
    refine .cons (Nat.zero_le _) (hrow (Nat.succ_le_succ hclosing) rest restLines ?_)
    rwa [Nat.add_sub_add_right]

-- Parentheses of the nodes around a node stand behind its last line, so `closing` counts those that
-- the text of the node does not have yet.
mutual

/-- What is printed of a view is written for its entries. -/
theorem written_renderAt (index : Option LineIndex) :
    ∀ (sexp : Sexp) (level closing : Nat), sexp.Named → Written index level closing
      (newline level ++ renderAt index level sexp).toList (sexp.entries level)
  | .node field kind span children, level, closing, h => by
      cases h with
      | node hfield hkind hchildren =>
          have hentry : Entry.Named ⟨level, field, kind, span⟩ := ⟨hfield, hkind⟩
          have htext :
              (newline level ++ renderAt index level (.node field kind span children)).toList =
                '\n' :: List.replicate (2 * level) ' ' ++
                  Entry.head index ⟨level, field, kind, span⟩ ++
                    (renderAll index (level + 1) children).toList ++ [')'] := by
            rw [renderAt, String.toList_append, newline_toList]
            simp [Entry.head]
          rw [htext, Sexp.entries]
          rcases children with _ | ⟨child, children⟩
          · rw [renderAll, Sexp.allEntries]
            simpa using Written.leaf hentry
          · have hinner := written_renderAll index (child :: children) (level + 1) (closing + 1)
              (List.cons_ne_nil _ _) hchildren
            exact .around hentry hinner

/-- What is printed of several views is written for their entries. -/
theorem written_renderAll (index : Option LineIndex) :
    ∀ (children : List Sexp) (level closing : Nat), children ≠ [] →
      (∀ child ∈ children, child.Named) → Written index level closing
        (renderAll index level children).toList (Sexp.allEntries level children)
  | [], _, _, hne, _ => absurd rfl hne
  | [child], level, closing, _, h => by
      have hchild := written_renderAt index child level closing (h child List.mem_cons_self)
      rw [renderAll, renderAll, Sexp.allEntries, Sexp.allEntries, String.append_empty,
        List.append_nil]
      exact hchild
  | child :: next :: children, level, closing, _, h => by
      obtain ⟨hfirst, hrest⟩ := List.forall_mem_cons.mp h
      have hchild := written_renderAt index child level 0 hfirst
      have hchildren := written_renderAll index (next :: children) level closing
        (List.cons_ne_nil _ _) hrest
      rw [renderAll, Sexp.allEntries, String.toList_append]
      exact hchild.append hchildren

end

/-- The text of a view is one line for each node. -/
theorem laid_render {sexp : Sexp} (h : sexp.Named) : Laid index sexp (render index sexp) := by
  obtain ⟨lines, htext, hlines, hrow⟩ := written_renderAt index sexp 0 0 h
  have hsplit : splitChars '\n' (render index sexp).toList = lines := by
    have hall := splitChars_flatMap hlines
    rw [← htext, String.toList_append, newline_toList] at hall
    simpa [splitChars, render] using hall
  have hnamed : ∀ entry ∈ sexp.entries 0, entry.Named := h.entries
  have hlaid : Lines index 0 (sexp.entries 0) lines := by
    have := hrow (Nat.le_refl 0) [] [] .nil
    rwa [List.append_nil, List.append_nil] at this
  constructor
  · rwa [hsplit]
  · rw [hsplit]
    exact hlaid.count_open hnamed
  · intro front line back heq
    rw [hsplit] at heq
    rw [heq] at hlaid
    exact hlaid.indented hnamed
  · have hall : Lines index 0 (sexp.entries 0) (lines ++ []) := by rwa [List.append_nil]
    obtain ⟨level, entries, hend, -, hcount⟩ := hall.split hnamed
    cases hend
    have hopen := count_flatten_splitChars (x := '(') (by decide) (render index sexp).toList
    have hclose := count_flatten_splitChars (x := ')') (by decide) (render index sexp).toList
    rw [hsplit] at hopen hclose
    omega

end Sexp

end Mcfunction
