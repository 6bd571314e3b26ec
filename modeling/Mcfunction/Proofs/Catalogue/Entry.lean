import Mathlib.Data.List.Forall2
import Mcfunction.Catalogue.Tables

/-!
# Accepted Catalogues

What a catalogue that is read says: its entries are the items of an array, each with its fields
where an item has them (`Entry.StandsIn`), and no two of them share an id or a name. Every such
catalogue is read, and no other is (`readWith_eq_ok`). Nothing is asked of the reader of JSON.

The reader compares an entry with those before it only. That is enough: of two entries one comes
before the other (`readEntries_eq_ok`, by induction on the items, with the entries before them
already apart).
-/

namespace Mcfunction.Catalogue

/-! ### One entry -/

/-- The entry is what an item of the array says. -/
structure Entry.StandsIn (entry : Entry) (item : Json) : Prop where
  /-- The id is there. -/
  id : item.member? "id" = some (.string entry.id)
  /-- The name of the constant is there. -/
  constant : item.member? "constName" = some (.string entry.constant)
  /-- The summary is there, whatever it is. -/
  summary : item.member? "summary" = some (.string entry.summary)
  /-- The description is there, whatever it is. -/
  description : item.member? "description" = some (.string entry.description)
  /-- The severity is there, by its name. -/
  severity : item.member? "severity" = some (.string entry.severity.name)
  /-- The id has the form of an id. -/
  isId : isId entry.id
  /-- The name has the form of a name. -/
  isConstant : isConstant entry.constant

/-- Two entries share neither the id nor the name. -/
def Entry.Apart (entry other : Entry) : Prop :=
  entry.id ≠ other.id ∧ entry.constant ≠ other.constant

/-- A step that is followed by another. -/
theorem bind_eq_ok {ε α β : Type} {result : Except ε α} {f : α → Except ε β} {b : β} :
    result >>= f = .ok b ↔ ∃ a, result = .ok a ∧ f a = .ok b := by
  cases result with
  | error fault => simp [bind, Except.bind]
  | ok a => simp [bind, Except.bind]

theorem field_eq_ok {item : Json} {name text : String} :
    field item name = .ok text ↔ item.member? name = some (.string text) := by
  rw [field]
  cases hmember : item.member? name with
  | none => simp
  | some value => cases value <;> simp [Json.string?]

theorem require_eq_ok {condition : Bool} {fault : EntryFault} :
    require condition fault = .ok () ↔ condition := by
  cases condition <;> simp [require]

theorem ofName?_eq_some {name : String} {severity : Severity} :
    Severity.ofName? name = some severity ↔ name = severity.name := by
  constructor
  · intro h
    unfold Severity.ofName? at h
    split at h
    · obtain rfl := Option.some.inj h
      rfl
    · obtain rfl := Option.some.inj h
      rfl
    · exact absurd h (by simp)
  · rintro rfl
    cases severity <;> rfl

/-- An entry is read exactly if it is complete, well formed and shares nothing with those before
it. -/
theorem readEntry_eq_ok {earlier : List Entry} {item : Json} {entry : Entry} :
    readEntry earlier item = .ok entry ↔
      entry.StandsIn item ∧ ∀ other ∈ earlier, other.Apart entry := by
  have hnew : ∀ (key : Entry → String) (text : String),
      (!earlier.any fun other => key other == text) = true ↔
        ∀ other ∈ earlier, key other ≠ text := by
    intro key text
    simp
  simp only [readEntry, bind_eq_ok, field_eq_ok]
  constructor
  · rintro ⟨id, hid, constant, hconstant, summary, hsummary, description, hdescription, name,
      hname, ⟨⟩, hisId, ⟨⟩, hisConstant, ⟨⟩, hnewId, ⟨⟩, hnewConstant, h⟩
    rw [require_eq_ok] at hisId hisConstant hnewId hnewConstant
    rw [hnew] at hnewId hnewConstant
    cases hseverity : Severity.ofName? name with
    | none => simp [hseverity] at h
    | some severity =>
      obtain rfl := ofName?_eq_some.mp hseverity
      obtain rfl : ⟨id, constant, summary, description, severity⟩ = entry := by
        simpa [hseverity, pure, Except.pure] using h
      exact ⟨⟨hid, hconstant, hsummary, hdescription, hname, hisId, hisConstant⟩,
        fun other hother => ⟨hnewId other hother, hnewConstant other hother⟩⟩
  · rintro ⟨hstands, hapart⟩
    refine ⟨_, hstands.id, _, hstands.constant, _, hstands.summary, _, hstands.description, _,
      hstands.severity, (), require_eq_ok.mpr hstands.isId, (),
      require_eq_ok.mpr hstands.isConstant, (),
      require_eq_ok.mpr ((hnew _ _).mpr fun other hother => (hapart other hother).1), (),
      require_eq_ok.mpr ((hnew _ _).mpr fun other hother => (hapart other hother).2), ?_⟩
    rw [ofName?_eq_some.mpr rfl]
    rfl

/-- The characters of an id need no escape and end no line. -/
theorem isId_plain {id : String} (h : isId id) :
    ∀ c ∈ id.toList, c ≠ '"' ∧ c ≠ '\\' ∧ c ≠ '\r' ∧ c ≠ '\n' := by
  unfold isId at h
  split at h
  · next digits hchars =>
    rw [Bool.and_eq_true, List.all_eq_true] at h
    rw [hchars]
    intro c hc
    simp only [List.mem_cons] at hc
    rcases hc with rfl | rfl | rfl | hdigit
    · decide
    · decide
    · decide
    · have hisDigit := h.2 c hdigit
      refine ⟨?_, ?_, ?_, ?_⟩ <;> (rintro rfl; exact absurd hisDigit (by decide))
  · exact absurd h (by simp)

theorem exists_of_isConstant {name : String} (h : isConstant name) :
    ∃ c chars, name.toList = c :: chars ∧ c.isUpper ∧ ∀ x ∈ chars, isConstantChar x := by
  unfold isConstant at h
  split at h
  · exact absurd h (by simp)
  · next c chars hchars =>
    rw [Bool.and_eq_true, List.all_eq_true] at h
    exact ⟨c, chars, hchars, h⟩

/-- The characters of a name end no line. -/
theorem isConstant_noBreak {name : String} (h : isConstant name) :
    '\n' ∉ name.toList := by
  obtain ⟨c, chars, hchars, hupper, hconstant⟩ := exists_of_isConstant h
  rw [hchars, List.mem_cons, not_or]
  refine ⟨?_, fun hmem => absurd (hconstant _ hmem) (by decide)⟩
  rintro rfl
  exact absurd hupper (by decide)

/-! ### All entries -/

/-- The entries that are read after others are what the items say, and none of them shares
anything with one before. -/
theorem readEntries_eq_ok {earlier : List Entry} {items : List Json} {entries : List Entry}
    (hearlier : earlier.Pairwise Entry.Apart) :
    readEntries earlier items = .ok entries ↔
      ∃ added, entries = earlier ++ added ∧ List.Forall₂ Entry.StandsIn added items ∧
        entries.Pairwise Entry.Apart := by
  induction items generalizing earlier with
  | nil =>
    simp only [readEntries, Except.ok.injEq, List.forall₂_nil_right_iff]
    constructor
    · rintro rfl
      exact ⟨[], by simp, rfl, hearlier⟩
    · rintro ⟨_, rfl, rfl, -⟩
      simp
  | cons item items ih =>
    rw [readEntries]
    constructor
    · intro h
      cases hentry : readEntry earlier item with
      | error fault => simp [hentry] at h
      | ok entry =>
        obtain ⟨hstands, hapart⟩ := readEntry_eq_ok.mp hentry
        have hgrown : (earlier ++ [entry]).Pairwise Entry.Apart := by
          simpa [List.pairwise_append, hearlier] using hapart
        rw [hentry] at h
        obtain ⟨added, rfl, hadded, hall⟩ := (ih hgrown).mp h
        exact ⟨entry :: added, by simp, .cons hstands hadded, hall⟩
    · rintro ⟨added, rfl, hadded, hall⟩
      obtain ⟨entry, others, hstands, hothers, rfl⟩ := List.forall₂_cons_right_iff.mp hadded
      have hsplit : earlier ++ entry :: others = earlier ++ [entry] ++ others :=
        List.append_cons earlier entry others
      have hgrown : (earlier ++ [entry]).Pairwise Entry.Apart :=
        (List.pairwise_append.mp (hsplit ▸ hall)).1
      have hapart : ∀ other ∈ earlier, other.Apart entry := fun other hother =>
        (List.pairwise_append.mp hgrown).2.2 other hother entry (by simp)
      rw [readEntry_eq_ok.mpr ⟨hstands, hapart⟩]
      exact (ih hgrown).mpr ⟨others, hsplit, hothers, hall⟩

variable {reader : String → Option Json}

/-- The items of the array that a text holds, when `reader` reads JSON. -/
def Items (reader : String → Option Json) (text : String) (items : List Json) : Prop :=
  ∃ spec, reader (Jsonc.strip text) = some spec ∧
    spec.member? "diagnostics" = some (.array items)

/-- A catalogue is read exactly if its array says the entries and no two of them share an id or a
name. -/
theorem readWith_eq_ok {text : String} {entries : List Entry} :
    readWith reader text = .ok entries ↔
      ∃ items, Items reader text items ∧ List.Forall₂ Entry.StandsIn entries items ∧
        entries.Pairwise Entry.Apart := by
  rw [readWith]
  constructor
  · intro h
    cases hspec : reader (Jsonc.strip text) with
    | none => simp [hspec] at h
    | some spec =>
      simp only [hspec] at h
      split at h
      · next items hmember =>
        obtain ⟨added, rfl, hadded, hall⟩ := (readEntries_eq_ok .nil).mp h
        exact ⟨items, ⟨spec, hspec, hmember⟩, by simpa using hadded, hall⟩
      · simp at h
  · rintro ⟨items, ⟨spec, hspec, hmember⟩, hstands, hall⟩
    simp only [hspec, hmember]
    exact (readEntries_eq_ok .nil).mpr ⟨entries, rfl, hstands, hall⟩

/-- Entries that are apart have different ids and different names. -/
theorem nodup_of_apart {entries : List Entry} (h : entries.Pairwise Entry.Apart) :
    (entries.map Entry.id).Nodup ∧ (entries.map Entry.constant).Nodup :=
  ⟨List.pairwise_map.mpr (h.imp fun hapart => hapart.1),
    List.pairwise_map.mpr (h.imp fun hapart => hapart.2)⟩

/-- The entries of a catalogue have ids and names of the right form. -/
theorem wellFormed_of_standsIn {entries : List Entry} {items : List Json}
    (h : List.Forall₂ Entry.StandsIn entries items) :
    ∀ entry ∈ entries, isId entry.id ∧ isConstant entry.constant := by
  induction h with
  | nil => simp
  | cons hstands _ ih =>
    intro entry hentry
    rcases List.mem_cons.mp hentry with rfl | hentry
    · exact ⟨hstands.isId, hstands.isConstant⟩
    · exact ih entry hentry

/-- The tables are built exactly from a catalogue that is read. -/
theorem buildWith_eq_ok {text : String} {built : Tables} :
    buildWith reader (.ok text) = .ok built ↔
      ∃ entries, readWith reader text = .ok entries ∧ built = tables entries := by
  cases hread : readWith reader text <;> simp [buildWith, hread, Except.map, eq_comm]

end Mcfunction.Catalogue
