import Mcfunction.Catalogue.Grammar
import Mcfunction.Proofs.Catalogue.Entry
import Mcfunction.Proofs.Catalogue.Lexeme

/-!
# The Lookup Tables Say What the Catalogue Says

A match expression is generated arm by arm. It is cut into the lexemes of the arms one after the
other, and these are read as the arms again, whatever the texts in the catalogue hold
(`Arm.all?_matchText`). The arm of an id is the first that admits the id, since no two entries
share one, so the order of the arms does not matter (`Arm.evaluate?_arms`).

Main result: `build_lookups`.
-/

namespace Mcfunction.Catalogue

open Lexeme

/-! ### The lexemes of an arm -/

/-- The result of an arm is cut into lexemes without commas that are read as the value. -/
structure Writes (result : String) (lexemes : List Lexeme) (value : Value) : Prop where
  /-- They are what the result is cut into before the parenthesis behind it. -/
  cut : State.run .between (result.toList ++ "),\n".toList) =
    some (.between, lexemes ++ [.closeParen, .comma])
  /-- There is no comma among them. -/
  noComma : .comma ∉ lexemes
  /-- They are read as the value. -/
  reads : Arm.value? lexemes = some value

theorem writes_literal (text : String) : Writes (literal text) [.literal text] (.text text) where
  cut := State.run_append (State.run_literal text) (by decide)
  noComma := by simp
  reads := rfl

/-- The lexemes that a severity is cut into. -/
def severityLexemes : Severity → List Lexeme
  | .error => [.word "Severity", .doubleColon, .word "Error"]
  | .warn => [.word "Severity", .doubleColon, .word "Warn"]

theorem writes_severityText (severity : Severity) :
    Writes (severityText severity) (severityLexemes severity) (.ofSeverity severity) := by
  cases severity <;> exact ⟨by decide, by decide, rfl⟩

/-- The lexemes of an arm, up to the comma behind it. -/
def armLexemes (id : String) (result : List Lexeme) : List Lexeme :=
  [.literal id, .arrow, .word "Some", .openParen] ++ result ++ [.closeParen]

theorem run_arm {id result : String} {lexemes : List Lexeme} {value : Value} (hid : isId id)
    (hresult : Writes result lexemes value) :
    State.run .between (arm id result).toList =
      some (.between, armLexemes id lexemes ++ [.comma]) := by
  have hchars : (arm id result).toList = "    ".toList ++ ((['"'] ++ (id.toList ++ ['"'])) ++
      (" => Some(".toList ++ (result.toList ++ "),\n".toList))) := by
    simp [arm]
  have hblank : State.run .between "    ".toList = some (.between, []) := by decide
  have hsome : State.run .between " => Some(".toList =
      some (.between, [.arrow, .word "Some", .openParen]) := by decide
  rw [hchars, State.run_append hblank (State.run_append (State.run_id hid)
    (State.run_append hsome hresult.cut))]
  simp [armLexemes]

/-! ### Reading arms -/

namespace Arm

/-- Lexemes without a comma go on with the arm before them. -/
theorem allFrom?_comma {read lexemes rest : List Lexeme} (h : .comma ∉ lexemes) :
    allFrom? read (lexemes ++ .comma :: rest) =
      (ofLexemes? (read.reverse ++ lexemes)).bind fun arm => (allFrom? [] rest).map (arm :: ·) := by
  induction lexemes generalizing read with
  | nil =>
    rw [List.nil_append, allFrom?, List.append_nil]
  | cons lexeme lexemes ih =>
    rw [List.mem_cons, not_or] at h
    rw [List.cons_append, allFrom?, ih h.2]
    · simp
    · rintro rfl
      simp
    · rintro rfl
      exact absurd rfl h.1

theorem ofLexemes?_armLexemes {id result : String} {lexemes : List Lexeme} {value : Value}
    (h : Writes result lexemes value) :
    ofLexemes? (armLexemes id lexemes) = some ⟨.literal id, some value⟩ := by
  simp [armLexemes, ofLexemes?, pattern?, result?, h.reads]

/-- The arms of entries and the last one, which admits whatever id is left. -/
def ofEntries (value : Entry → Value) (entries : List Entry) : List Arm :=
  (entries.map fun entry => ⟨.literal entry.id, some (value entry)⟩) ++ [⟨.wildcard, none⟩]

section Generated

variable {result : Entry → String} {lexemes : Entry → List Lexeme} {value : Entry → Value}
variable {entries : List Entry}

theorem allFrom?_entries (h : ∀ entry, Writes (result entry) (lexemes entry) (value entry)) :
    allFrom? [] ((entries.flatMap fun entry => armLexemes entry.id (lexemes entry) ++ [.comma]) ++
        [.word "_", .arrow, .word "None", .comma, .closeBrace]) =
      some (ofEntries value entries) := by
  induction entries with
  | nil => rfl
  | cons entry entries ih =>
    have hcomma : .comma ∉ armLexemes entry.id (lexemes entry) := by
      simp [armLexemes, (h entry).noComma]
    rw [List.flatMap_cons, List.append_assoc, List.append_assoc, List.singleton_append,
      allFrom?_comma hcomma, List.reverse_nil, List.nil_append, ofLexemes?_armLexemes (h entry),
      ih]
    rfl

/-- What is generated for entries is read as their arms. -/
theorem all?_matchText (hids : ∀ entry ∈ entries, isId entry.id)
    (h : ∀ entry, Writes (result entry) (lexemes entry) (value entry)) :
    all? (matchText (entries.map fun entry => arm entry.id (result entry))) =
      some (ofEntries value entries) := by
  have hchars : (matchText (entries.map fun entry => arm entry.id (result entry))).toList =
      "match id \x7b\n".toList ++
        ((entries.flatMap fun entry => (arm entry.id (result entry)).toList) ++
          "    _ => None,\n\x7d\n".toList) := by
    simp [matchText, List.flatMap, Function.comp_def]
  have hopen : State.run .between "match id \x7b\n".toList =
      some (.between, [.word "match", .word "id", .openBrace]) := by decide
  have hclose : State.run .between "    _ => None,\n\x7d\n".toList =
      some (.between, [.word "_", .arrow, .word "None", .comma, .closeBrace]) := by decide
  have hrun := State.run_append hopen (State.run_append
    (State.run_flatMap fun entry hentry => run_arm (hids entry hentry) (h entry)) hclose)
  rw [← hchars] at hrun
  rw [all?, Lexeme.all?_of_run hrun]
  exact allFrom?_entries h

/-- The arms give what the entry with the id gives, and nothing if there is none. -/
theorem evaluate?_ofEntries (id : String) :
    evaluate? (ofEntries value entries) id =
      some ((entries.find? fun entry => entry.id == id).map value) := by
  have hadmits : (fun arm : Arm => arm.pattern.admits id) ∘
      (fun entry : Entry => (⟨.literal entry.id, some (value entry)⟩ : Arm)) =
        fun entry => entry.id == id := rfl
  rw [evaluate?, ofEntries, List.find?_append, List.find?_map, hadmits]
  cases entries.find? fun entry => entry.id == id with
  | none => rfl
  | some entry => rfl

/-- An entry is the only one with its id, so it is found by the id wherever it stands. -/
theorem find?_of_nodup {entry : Entry} (hnodup : (entries.map Entry.id).Nodup)
    (hentry : entry ∈ entries) :
    (entries.find? fun other => other.id == entry.id) = some entry := by
  induction entries with
  | nil => exact absurd hentry (by simp)
  | cons first entries ih =>
    rw [List.map_cons, List.nodup_cons] at hnodup
    rcases List.mem_cons.mp hentry with rfl | hentry
    · simp
    · have hne : first.id ≠ entry.id := fun heq =>
        hnodup.1 (List.mem_map.mpr ⟨entry, hentry, heq.symm⟩)
      rw [List.find?_cons_of_neg (by simpa using hne)]
      exact ih hnodup.2 hentry

/-- The arms give what an entry gives for its id, and nothing for other ids. -/
theorem evaluate?_of_nodup (value : Entry → Value) (hnodup : (entries.map Entry.id).Nodup) :
    (∀ entry ∈ entries,
      evaluate? (ofEntries value entries) entry.id = some (some (value entry))) ∧
    ∀ id, id ∉ entries.map Entry.id → evaluate? (ofEntries value entries) id = some none := by
  refine ⟨fun entry hentry => ?_, fun id hid => ?_⟩
  · rw [evaluate?_ofEntries, find?_of_nodup hnodup hentry]
    rfl
  · have hfind : (entries.find? fun entry => entry.id == id) = none := by
      rw [List.find?_eq_none]
      intro entry hentry heq
      exact hid (List.mem_map.mpr ⟨entry, hentry, beq_iff_eq.mp heq⟩)
    rw [evaluate?_ofEntries, hfind]
    rfl

end Generated

end Arm

/-! ### The tables -/

/-- The entries of a catalogue that is built are what its items say, whoever reads JSON. No two of
them share an id or a name, and both match expressions are read as arms that give for the id of an
entry its description and its severity, and nothing for any other text. -/
theorem build_lookups {reader : String → Option Json} {text : String} {built : Tables}
    (h : buildWith reader (.ok text) = .ok built) :
    ∃ items entries explain severity, Items reader text items ∧
      readWith reader text = .ok entries ∧
      List.Forall₂ Entry.StandsIn entries items ∧
      (entries.map Entry.id).Nodup ∧ (entries.map Entry.constant).Nodup ∧
      Arm.all? built.explain = some explain ∧ Arm.all? built.severity = some severity ∧
      (∀ entry ∈ entries,
        Arm.evaluate? explain entry.id = some (some (.text entry.description)) ∧
        Arm.evaluate? severity entry.id = some (some (.ofSeverity entry.severity))) ∧
      ∀ id, id ∉ entries.map Entry.id →
        Arm.evaluate? explain id = some none ∧ Arm.evaluate? severity id = some none := by
  obtain ⟨entries, hread, rfl⟩ := buildWith_eq_ok.mp h
  obtain ⟨items, hitems, hstands, hapart⟩ := readWith_eq_ok.mp hread
  obtain ⟨hids, hconstants⟩ := nodup_of_apart hapart
  have hisId : ∀ entry ∈ entries, isId entry.id := fun entry hentry =>
    (wellFormed_of_standsIn hstands entry hentry).1
  obtain ⟨hdescription, hnone⟩ :=
    Arm.evaluate?_of_nodup (fun entry => .text entry.description) hids
  obtain ⟨hseverity, hnothing⟩ :=
    Arm.evaluate?_of_nodup (fun entry => .ofSeverity entry.severity) hids
  exact ⟨items, entries, _, _, hitems, hread, hstands, hids, hconstants,
    Arm.all?_matchText hisId fun entry => writes_literal entry.description,
    Arm.all?_matchText hisId fun entry => writes_severityText entry.severity,
    fun entry hentry => ⟨hdescription entry hentry, hseverity entry hentry⟩,
    fun id hid => ⟨hnone id hid, hnothing id hid⟩⟩

/-- A description with quotes, a backslash, a control character and characters beyond ASCII. -/
def quotingEntry : Entry :=
  ⟨"MCF0042", "QUOTES", "", "\"\x27\\u\x00\u00e9\u2028", .warn⟩

/-- A catalogue of this entry, with a trailing comma and a comment. -/
def quotingText : String :=
  "\x7b\"diagnostics\":[\x7b\"id\":\"MCF0042\",\"constName\":\"QUOTES\",\"summary\":\"\"," ++
    "\"description\":\"\\\"\x27\\\\u\\u0000\u00e9\\u2028\",\"severity\":\"warn\"\x7d,]\x7d//"

theorem build_lookups_quoting :
    build (.ok quotingText) = .ok (tables [quotingEntry]) ∧
      ∃ explain, Arm.all? (tables [quotingEntry]).explain = some explain ∧
        Arm.evaluate? explain "MCF0042" = some (some (.text "\"\x27\\u\x00\u00e9\u2028")) ∧
        Arm.evaluate? explain "MCF0043" = some none := by
  have hread : read quotingText = .ok [quotingEntry] := by decide +kernel
  have hbuild : build (.ok quotingText) = .ok (tables [quotingEntry]) :=
    buildWith_eq_ok.mpr ⟨_, hread, rfl⟩
  obtain ⟨items, entries, explain, severity, -, hentries, -, -, -, hexplain, -, hgives, hnone⟩ :=
    build_lookups hbuild
  obtain rfl : [quotingEntry] = entries := Except.ok.inj (hread.symm.trans hentries)
  exact ⟨hbuild, explain, hexplain, (hgives quotingEntry (by simp)).1,
    (hnone "MCF0043" (by decide)).1⟩

end Mcfunction.Catalogue
