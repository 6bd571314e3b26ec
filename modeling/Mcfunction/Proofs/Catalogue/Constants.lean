import Mcfunction.Catalogue.Grammar
import Mcfunction.Proofs.Catalogue.Entry
import Mcfunction.Proofs.Catalogue.Lexeme
import Mcfunction.Proofs.Split

/-!
# The Constants of a Catalogue

Of the texts of an entry that go into the file of constants, the id and the name of the constant
cannot leave their places: the form that the reader of a catalogue asks of them has neither quotes
nor line breaks. The summary goes into a documentation line as it is, and nothing is asked of it.

Main results:

* `build_codes_iff`: the file has the lines it should have, for each entry a documentation line,
  the constant and an empty line, exactly if no summary holds a line feed, and it is read as the
  constants with their documentation exactly if no summary holds a line feed or a carriage return;
* `build_codes_leaving`: a catalogue with a line feed in a summary is accepted, and the text behind
  the line feed stands outside of the documentation.
-/

namespace Mcfunction.Catalogue

open Lexeme

/-! ### The lines of the file -/

/-- The line of an entry's constant. -/
def Entry.constantLine (entry : Entry) : String :=
  "pub const " ++ entry.constant ++ ": &str = \"" ++ entry.id ++ "\";"

/-- What the lines of an entry should be: one of documentation, the constant and an empty one. -/
def Entry.Lines (entry : Entry) (lines : List (List Char)) : Prop :=
  ∃ note, lines = ["/// ".toList ++ note, entry.constantLine.toList, []]

/-- What is written for an entry, up to three line breaks. -/
def Entry.written (entry : Entry) : List (List Char) :=
  ["/// ".toList ++ entry.summary.toList, entry.constantLine.toList, []]

/-- The lines before those of the entries. -/
def headerLines : List (List Char) :=
  ["// Auto-generated from spec/diagnostics.jsonc. DO NOT EDIT.".toList, []]

theorem Entry.toList_declaration (entry : Entry) :
    entry.declaration.toList = entry.written.flatMap (· ++ ['\n']) := by
  have hbreak : "\n".toList = ['\n'] := rfl
  have hend : "\";\n\n".toList = "\";".toList ++ ['\n', '\n'] := rfl
  simp only [declaration, constantLine, written, String.toList_append, hbreak, hend,
    List.flatMap_cons, List.flatMap_nil, List.append_assoc, List.nil_append, List.cons_append]

theorem toList_codesText (entries : List Entry) : (codesText entries).toList =
    (headerLines ++ entries.flatMap Entry.written).flatMap (· ++ ['\n']) := by
  have hheader : ("// Auto-generated from " ++ path ++ ". DO NOT EDIT.\n\n").toList =
      headerLines.flatMap (· ++ ['\n']) := rfl
  have hjoin : (String.join (entries.map Entry.declaration)).toList =
      (entries.flatMap Entry.written).flatMap (· ++ ['\n']) := by
    simp only [String.toList_join, List.flatMap_assoc, List.flatMap_map, Entry.toList_declaration]
  rw [List.flatMap_append, ← hheader, ← hjoin]
  exact String.toList_append

/-- There are as many line breaks as lines, and those in the lines. -/
theorem count_flatMap_line (lines : List (List Char)) :
    (lines.flatMap (· ++ ['\n'])).count '\n' = lines.flatten.count '\n' + lines.length := by
  induction lines with
  | nil => rfl
  | cons line lines ih =>
    rw [List.flatMap_cons, List.flatten_cons, List.count_append, List.count_append,
      List.count_append, ih, List.length_cons, List.count_singleton_self]
    omega

/-! ### The file as lines -/

theorem noBreak_constantLine {entry : Entry} (hid : isId entry.id)
    (hconstant : isConstant entry.constant) : '\n' ∉ entry.constantLine.toList := by
  have hplain : '\n' ∉ entry.id.toList := fun hmem => (isId_plain hid '\n' hmem).2.2.2 rfl
  simp only [Entry.constantLine, String.toList_append, List.mem_append, not_or]
  exact ⟨⟨⟨⟨by decide, isConstant_noBreak hconstant⟩, by decide⟩, hplain⟩, by decide⟩

theorem length_flatten_blocks {entries : List Entry} {blocks : List (List (List Char))}
    (h : List.Forall₂ Entry.Lines entries blocks) :
    blocks.flatten.length = (entries.flatMap Entry.written).length := by
  induction h with
  | nil => rfl
  | cons hlines _ ih =>
    obtain ⟨note, rfl⟩ := hlines
    rw [List.flatten_cons, List.flatMap_cons, List.length_append, List.length_append, ih]
    rfl

/-- The file has the lines it should have exactly if no summary holds a line feed. -/
theorem codesText_lines_iff {entries : List Entry}
    (hform : ∀ entry ∈ entries, isId entry.id ∧ isConstant entry.constant) :
    (∃ blocks, List.Forall₂ Entry.Lines entries blocks ∧
      splitChars '\n' (codesText entries).toList = headerLines ++ blocks.flatten ++ [[]]) ↔
        ∀ entry ∈ entries, '\n' ∉ entry.summary.toList := by
  constructor
  · rintro ⟨blocks, hblocks, hsplit⟩ entry hentry hmem
    -- the line feed would make one line too many
    have hlength := length_splitChars '\n' (codesText entries).toList
    rw [hsplit, toList_codesText, count_flatMap_line] at hlength
    have hcount : (headerLines ++ entries.flatMap Entry.written).flatten.count '\n' = 0 := by
      simp only [List.length_append, List.length_singleton,
        length_flatten_blocks hblocks] at hlength
      omega
    have hline : "/// ".toList ++ entry.summary.toList ∈
        headerLines ++ entries.flatMap Entry.written :=
      List.mem_append_right _ (List.mem_flatMap.mpr ⟨entry, hentry, List.mem_cons_self⟩)
    exact List.count_eq_zero.mp hcount
      (List.mem_flatten.mpr ⟨_, hline, List.mem_append_right _ hmem⟩)
  · intro hsummaries
    refine ⟨entries.map Entry.written, ?_, ?_⟩
    · rw [List.forall₂_map_right_iff, List.forall₂_same]
      exact fun entry _ => ⟨entry.summary.toList, rfl⟩
    · have hlines : ∀ line ∈ headerLines ++ entries.flatMap Entry.written, '\n' ∉ line := by
        intro line hline
        rcases List.mem_append.mp hline with hheader | hline
        · simp only [headerLines, List.mem_cons, List.not_mem_nil, or_false] at hheader
          rcases hheader with rfl | rfl <;> decide
        · obtain ⟨entry, hentry, hline⟩ := List.mem_flatMap.mp hline
          obtain ⟨hid, hconstant⟩ := hform entry hentry
          simp only [Entry.written, List.mem_cons, List.not_mem_nil, or_false] at hline
          rcases hline with rfl | rfl | rfl
          · rw [List.mem_append, not_or]
            exact ⟨by decide, hsummaries entry hentry⟩
          · exact noBreak_constantLine hid hconstant
          · exact List.not_mem_nil
      have hsplit := splitChars_flatMap_line hlines []
      rwa [List.append_nil, ← toList_codesText] at hsplit

/-! ### The file as constants -/

/-- The constant of an entry, with the summary for its documentation. -/
def Entry.documented (entry : Entry) : Constant :=
  ⟨[String.ofList (' ' :: entry.summary.toList)], entry.constant, entry.id⟩

/-- The lexemes of an entry. -/
def Entry.lexemes (entry : Entry) : List Lexeme :=
  [.note (String.ofList (' ' :: entry.summary.toList)), .word "pub", .word "const",
    .word entry.constant, .colon, .ampersand, .word "str", .equals, .literal entry.id, .semicolon]

theorem run_declaration {entry : Entry} (hid : isId entry.id)
    (hconstant : isConstant entry.constant) (hsummary : State.IsOneLine entry.summary.toList) :
    State.run .between entry.declaration.toList = some (.between, entry.lexemes) := by
  have hchars : entry.declaration.toList =
      ("/// ".toList ++ entry.summary.toList ++ ['\n']) ++ ("pub const ".toList ++
        (entry.constant.toList ++ (": &str = ".toList ++ ((['"'] ++ (entry.id.toList ++ ['"'])) ++
          ";\n\n".toList)))) := by
    have hopen : ": &str = \"".toList = ": &str = ".toList ++ ['"'] := rfl
    have hclose : "\";\n\n".toList = ['"'] ++ ";\n\n".toList := rfl
    have hbreak : "\n".toList = ['\n'] := rfl
    simp only [Entry.declaration, String.toList_append, hopen, hclose, hbreak, List.append_assoc]
  have hkeywords : State.run .between "pub const ".toList =
      some (.between, [.word "pub", .word "const"]) := by decide
  have htype : State.run (.word entry.constant.toList.reverse) ": &str = ".toList =
      some (.between, [.word entry.constant, .colon, .ampersand, .word "str", .equals]) := by
    have hword : State.wordOf entry.constant.toList.reverse = .word entry.constant := by
      rw [State.wordOf, List.reverse_reverse, String.ofList_toList]
    rw [← hword]
    rfl
  have hend : State.run .between ";\n\n".toList = some (.between, [.semicolon]) := by decide
  rw [hchars, State.run_append (State.run_note hsummary) (State.run_append hkeywords
    (State.run_append (State.run_constant hconstant) (State.run_append htype
      (State.run_append (State.run_id hid) hend))))]
  rfl

namespace Constant

/-- Every line that documents a constant is there. -/
theorem exists_note_of_allFrom? {notes : List String} {lexemes : List Lexeme}
    {constants : List Constant} (h : allFrom? notes lexemes = some constants) :
    ∀ constant ∈ constants, ∀ line ∈ constant.notes, line ∈ notes ∨ .note line ∈ lexemes := by
  fun_induction allFrom? notes lexemes generalizing constants with
  | case1 =>
    obtain rfl := Option.some.inj h
    simp
  | case2 => simp at h
  | case3 notes line lexemes ih =>
    intro constant hconstant other hother
    rcases ih h constant hconstant other hother with hnotes | hlexemes
    · rcases List.mem_append.mp hnotes with hnotes | hline
      · exact .inl hnotes
      · obtain rfl := List.mem_singleton.mp hline
        exact .inr List.mem_cons_self
    · exact .inr (List.mem_cons_of_mem _ hlexemes)
  | case4 notes visibility keyword name type value lexemes hwords ih =>
    obtain ⟨constants, hrest, rfl⟩ := Option.map_eq_some_iff.mp h
    intro constant hconstant line hline
    rcases List.mem_cons.mp hconstant with rfl | hconstant
    · exact .inl hline
    · rcases ih hrest constant hconstant line hline with hnotes | hlexemes
      · exact absurd hnotes List.not_mem_nil
      · exact .inr (by simp [hlexemes])
  | case5 => simp at h
  | case6 => simp at h

/-- The lexemes of entries are read as their constants. -/
theorem allFrom?_lexemes (entries : List Entry) :
    allFrom? [] (entries.flatMap Entry.lexemes) = some (entries.map Entry.documented) := by
  induction entries with
  | nil => rfl
  | cons entry entries ih =>
    rw [List.flatMap_cons, Entry.lexemes]
    exact (congrArg (Option.map (entry.documented :: ·)) ih).trans rfl

end Constant

/-- The file is read as the constants with their documentation exactly if every summary stands on
one line. -/
theorem all?_codesText_iff {entries : List Entry}
    (hform : ∀ entry ∈ entries, isId entry.id ∧ isConstant entry.constant) :
    Constant.all? (codesText entries) = some (entries.map Entry.documented) ↔
      ∀ entry ∈ entries, State.IsOneLine entry.summary.toList := by
  constructor
  · intro h entry hentry
    obtain ⟨lexemes, hlexemes, hconstants⟩ := Option.bind_eq_some_iff.mp h
    have hnote : .note (String.ofList (' ' :: entry.summary.toList)) ∈ lexemes := by
      rcases Constant.exists_note_of_allFrom? hconstants entry.documented
        (List.mem_map_of_mem hentry) _ List.mem_cons_self with hnil | hnote
      · exact absurd hnil List.not_mem_nil
      · exact hnote
    have hline := notesOneLine_of_all? hlexemes _ hnote
    rw [String.toList_ofList] at hline
    exact (State.isOneLine_cons.mp hline).2
  · intro hsummaries
    have hheader : State.run .between
        ("// Auto-generated from " ++ path ++ ". DO NOT EDIT.\n\n").toList =
          some (.between, []) := by decide +kernel
    have hentries : State.run .between (String.join (entries.map Entry.declaration)).toList =
        some (.between, entries.flatMap Entry.lexemes) := by
      rw [String.toList_join, List.flatMap_map]
      exact State.run_flatMap fun entry hentry =>
        run_declaration (hform entry hentry).1 (hform entry hentry).2 (hsummaries entry hentry)
    have hrun := State.run_append hheader hentries
    rw [← String.toList_append] at hrun
    have hall : all? (codesText entries) = some (entries.flatMap Entry.lexemes) := all?_of_run hrun
    rw [Constant.all?, hall]
    exact Constant.allFrom?_lexemes entries

/-! ### The built file -/

/-- The entries of a catalogue that is built are what its items say, whoever reads JSON. The file of
constants has the lines it should have, entry by entry, exactly if no summary holds a line feed,
and it is read as the constants, each with the id of its entry and the summary for its
documentation, exactly if no summary holds a line feed or a carriage return. -/
theorem build_codes_iff {reader : String → Option Json} {text : String} {built : Tables}
    (h : buildWith reader (.ok text) = .ok built) :
    ∃ items entries, Items reader text items ∧ readWith reader text = .ok entries ∧
      List.Forall₂ Entry.StandsIn entries items ∧
      ((∃ blocks, List.Forall₂ Entry.Lines entries blocks ∧
        splitChars '\n' built.codes.toList = headerLines ++ blocks.flatten ++ [[]]) ↔
          ∀ entry ∈ entries, '\n' ∉ entry.summary.toList) ∧
      (Constant.all? built.codes = some (entries.map Entry.documented) ↔
        ∀ entry ∈ entries, State.IsOneLine entry.summary.toList) := by
  obtain ⟨entries, hread, rfl⟩ := buildWith_eq_ok.mp h
  obtain ⟨items, hitems, hstands, -⟩ := readWith_eq_ok.mp hread
  have hform := wellFormed_of_standsIn hstands
  exact ⟨items, entries, hitems, hread, hstands, codesText_lines_iff hform,
    all?_codesText_iff hform⟩

/-- An entry whose summary has two lines. -/
def leavingEntry : Entry :=
  ⟨"MCF0001", "A", "a\nb", "", .warn⟩

/-- A catalogue of this entry. -/
def leavingText : String :=
  "\x7b\"diagnostics\":[\x7b\"id\":\"MCF0001\",\"constName\":\"A\",\"summary\":\"a\\nb\"," ++
    "\"description\":\"\",\"severity\":\"warn\"\x7d]\x7d"

/-- The second line of the summary is taken for source text. -/
theorem build_codes_leaving :
    build (.ok leavingText) = .ok (tables [leavingEntry]) ∧
      (tables [leavingEntry]).codes =
        "// Auto-generated from spec/diagnostics.jsonc. DO NOT EDIT." ++
          "\n\n/// a\nb\npub const A: &str = \"MCF0001\";\n\n" ∧
      (¬ ∃ blocks, List.Forall₂ Entry.Lines [leavingEntry] blocks ∧
        splitChars '\n' (tables [leavingEntry]).codes.toList =
          headerLines ++ blocks.flatten ++ [[]]) ∧
      Constant.all? (tables [leavingEntry]).codes ≠ some [leavingEntry.documented] := by
  have hread : read leavingText = .ok [leavingEntry] := by decide +kernel
  have hbuild : build (.ok leavingText) = .ok (tables [leavingEntry]) :=
    buildWith_eq_ok.mpr ⟨_, hread, rfl⟩
  obtain ⟨items, entries, -, hentries, -, hlines, hconstants⟩ := build_codes_iff hbuild
  obtain rfl : [leavingEntry] = entries := Except.ok.inj (hread.symm.trans hentries)
  have hbreak : '\n' ∈ leavingEntry.summary.toList := by decide
  refine ⟨hbuild, by decide +kernel, fun h => ?_, fun h => ?_⟩
  · exact hlines.mp h leavingEntry List.mem_cons_self hbreak
  · exact (hconstants.mp h leavingEntry List.mem_cons_self _ hbreak).1 rfl

end Mcfunction.Catalogue
