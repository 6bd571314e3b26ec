import Mcfunction.CommandLine.Program
import Mcfunction.Proofs.Json
import Mcfunction.Proofs.Placeholders
import Mcfunction.Proofs.Warnings

/-!
# What Is Read of a Report

A tool reads a report as JSON, and of that the members it asks for by name: the others it passes
over, however deep they nest. So the diagnostics of a report can be read whatever tree stands
beside them, and they are the ones that were reported.

For this the diagnostics must be read back from their JSON form. They are because they stand in
the text, so that their offsets are no larger than it, and because their contexts have at most one
fact, so that the facts are in order.

For people each diagnostic becomes a picture. Since all diagnostics are at places in the text, no
picture shows another place than that of its diagnostic.

## Main results

* `Document.exists_span_of_mem`: each diagnostic of a parse is at a place in the text.
* `diagnosticsReport_of_run`: for people each diagnostic is drawn at its place.
* `Diagnostic.ofJson?_toJson`: a diagnostic is read back from its JSON form.
* `memberIn?_printed`: what is read of the member of a report.
-/

namespace Mcfunction

/-! ### Diagnostics in the text -/

/-- A diagnostic tells an error that was logged, or a warning. -/
theorem exists_of_mem_diagnosticsOf {log : List Event} {diagnostic : Diagnostic}
    (h : diagnostic ∈ diagnosticsOf log) :
    (∃ error ∈ errorsOf log, diagnostic = error.toDiagnostic) ∨
      ∃ place ∈ warningsOf log, diagnostic = .neverInterpolated place := by
  obtain ⟨event, hevent, hdiagnostic⟩ := List.mem_filterMap.mp h
  cases event with
  | started | statement | finished => cases hdiagnostic
  | recovered error | skippedStatement error =>
      refine .inl ⟨error, List.mem_filterMap.mpr ⟨_, hevent, rfl⟩, ?_⟩
      exact (Option.some.inj hdiagnostic).symm
  | neverInterpolated place =>
      refine .inr ⟨place, List.mem_filterMap.mpr ⟨_, hevent, rfl⟩, ?_⟩
      exact (Option.some.inj hdiagnostic).symm

/-- Each diagnostic of a tolerant parse is at a place in the text. -/
theorem Document.exists_span_of_mem {text : String} {options : ParseOptions} {document : Document}
    {log : List Event} {next : Cursor}
    (hrun : run .tolerant options text = .done document log next)
    (hstatements : StatementsAt (ArgumentsAt options.maxDepth) (.start text) document.statements) :
    ∀ diagnostic ∈ diagnosticsOf log, ∃ span, diagnostic.span = some span ∧
      span.start ≤ span.stop ∧ span.stop ≤ text.utf8ByteSize := by
  intro diagnostic hmem
  rcases exists_of_mem_diagnosticsOf hmem with ⟨error, herror, rfl⟩ | ⟨place, hplace, rfl⟩
  · obtain ⟨node, -, a, ha, -, b, c, hab, hbc, hspan⟩ := (run_told hrun).covered error herror
    refine ⟨error.span, rfl, ?_⟩
    rw [hspan]
    exact ⟨Cursor.offset_le_of_le hbc, Cursor.offset_le_utf8ByteSize ((ha.trans hab.le).trans hbc)⟩
  · rw [run_warns hrun] at hplace
    obtain ⟨statement, hstatement, rfl⟩ := List.mem_map.mp hplace
    obtain ⟨d, -, hrow⟩ := hstatements.row (ArgumentsAt.argumentsPlaced options.maxDepth)
      (ArgumentsAt.outlined options.maxDepth)
    have hall := hrow.allAt
    have hpart : statement.outline ∈ document.statements.map Statement.outline :=
      List.mem_map_of_mem (List.mem_filter.mp hstatement).1
    refine ⟨statement.span, rfl, ?_⟩
    rw [← statement.outline_span]
    exact ⟨(hall.nested le_rfl _ hpart).start_le,
      (hall.stop_le hpart).trans (Cursor.offset_le_utf8ByteSize hall.le)⟩

/-- The context of a diagnostic has at most one fact. -/
theorem exists_fact_of_mem {log : List Event} {diagnostic : Diagnostic}
    (h : diagnostic ∈ diagnosticsOf log) :
    ∀ context, diagnostic.context = some context → ∃ fact, context = [fact] := by
  intro context hcontext
  rcases exists_of_mem_diagnosticsOf h with ⟨error, -, rfl⟩ | ⟨place, -, rfl⟩
  · obtain ⟨expected, -, rfl⟩ := Option.map_eq_some_iff.mp hcontext
    exact ⟨_, rfl⟩
  · cases hcontext

/-! ### Diagnostics read back -/

/-- A severity is read back from its name. -/
@[simp] theorem Severity.ofJson?_name (severity : Severity) :
    Severity.ofJson? (.string severity.name) = some severity := by
  cases severity <;> rfl

/-- The facts of a context are read back, put into order. -/
@[simp] theorem Context.ofJson?_toJson (context : Context) :
    Context.ofJson? context.toJson = some (.ofList context) := by
  have hfacts (members : List (String × Json)) (h : context.toJson = .object members) :
      members.mapM fact? = some context := by
    cases h
    exact mapM_some fun _ _ => rfl
  have hobject : context.toJson = .object (context.map _) := rfl
  rw [hobject, ofJson?, hfacts _ hobject, Option.map_some]

/-- A diagnostic is read back from its JSON form if its context is in order. -/
theorem Diagnostic.ofJson?_toJson {diagnostic : Diagnostic}
    (hcontext : ∀ context, diagnostic.context = some context → .ofList context = context) :
    ofJson? diagnostic.toJson = some diagnostic := by
  obtain ⟨id, severity, message, span, context⟩ := diagnostic
  have hnull : ∀ span : Span, span.toJson ≠ .null := by simp [Span.toJson]
  have hnull' : ∀ context : Context, context.toJson ≠ .null := by simp [Context.toJson]
  cases span <;> cases context <;>
    simp [ofJson?, toJson, Json.parts?, Json.unique?, Json.required, Json.string?, Json.optional,
      Json.nullable, *]

/-- How a diagnostic must be so that a report of it can be read: at offsets of a text, and with a
context in order. -/
structure Diagnostic.Readable (diagnostic : Diagnostic) : Prop where
  /-- The offsets have 64 bits. -/
  span : ∀ span, diagnostic.span = some span →
    span.start < offsetLimit ∧ span.stop < offsetLimit
  /-- The context is in order. -/
  context : ∀ context, diagnostic.context = some context → Context.ofList context = context

/-- All diagnostics of a parse can be read, unless the text has more bytes than there are
offsets. -/
theorem Document.readable_of_mem {text : String} {options : ParseOptions} {document : Document}
    {log : List Event} {next : Cursor}
    (hrun : run .tolerant options text = .done document log next)
    (hstatements : StatementsAt (ArgumentsAt options.maxDepth) (.start text) document.statements)
    (hsize : text.utf8ByteSize < offsetLimit) :
    ∀ diagnostic ∈ diagnosticsOf log, diagnostic.Readable := by
  intro diagnostic hmem
  obtain ⟨place, hplace, hordered, hstop⟩ := exists_span_of_mem hrun hstatements diagnostic hmem
  constructor
  · intro span hspan
    obtain rfl : place = span := Option.some.inj (hplace.symm.trans hspan)
    omega
  · intro context hcontext
    obtain ⟨fact, rfl⟩ := exists_fact_of_mem hmem context hcontext
    rfl

/-- An offset is read back from its numeral. -/
theorem Json.fits_natural {n : Nat} (h : n < offsetLimit) : Json.fits n := by
  have hlimit : offsetLimit = 2 ^ 64 := rfl
  constructor <;> omega

/-- All numbers in a diagnostic that can be read are read back. -/
theorem Diagnostic.Readable.readsBack {diagnostic : Diagnostic} (h : diagnostic.Readable) :
    diagnostic.toJson.ReadsBack := by
  obtain ⟨id, severity, message, span, context⟩ := diagnostic
  have hspan : ∀ place, span = some place → place.toJson.ReadsBack := by
    intro place hplace
    obtain ⟨hstart, hstop⟩ := h.span place hplace
    exact ⟨Json.fits_natural hstart, Json.fits_natural hstop, trivial⟩
  have hcontext : ∀ facts : Context, facts.toJson.ReadsBack := by
    intro facts
    rw [Context.toJson, Json.ReadsBack]
    induction facts with
    | nil => trivial
    | cons fact facts ih => exact ⟨trivial, ih⟩
  cases span <;> cases context <;>
    simp [Diagnostic.toJson, Json.optional, Json.ReadsBack, Json.MembersReadBack, *]

/-- A diagnostic does not nest deep. -/
theorem Diagnostic.depth_toJson (diagnostic : Diagnostic) : diagnostic.toJson.depth ≤ 2 := by
  obtain ⟨id, severity, message, span, context⟩ := diagnostic
  have hspan : ∀ place : Span, place.toJson.depth = 1 := fun place => rfl
  have hcontext : ∀ facts : Context, facts.toJson.depth = 1 := by
    intro facts
    rw [Context.toJson, Json.depth]
    induction facts with
    | nil => rfl
    | cons fact facts ih => simpa [Json.depthOfMembers, Json.depth] using ih
  cases span <;> cases context <;>
    simp [Diagnostic.toJson, Json.optional, Json.depth, Json.depthOfMembers, hspan, hcontext]

namespace CommandLine

/-! ### Reports for people -/

/-- A report underlines a piece of the text, whatever the diagnostic says. -/
theorem Report.ofDiagnostic_span (name : String) (size : Nat) (index : LineIndex)
    (diagnostic : Diagnostic) (span : Span) :
    (Report.ofDiagnostic name size index diagnostic span).span.start ≤
        (Report.ofDiagnostic name size index diagnostic span).span.stop ∧
      (Report.ofDiagnostic name size index diagnostic span).span.stop ≤ size := by
  show min span.start size ≤ max (min span.stop size) (min span.start size) ∧
    max (min span.stop size) (min span.start size) ≤ size
  omega

/-- It underlines exactly the place of the diagnostic if this is in the text. -/
theorem Report.ofDiagnostic_span_of_le {span : Span} {size : Nat}
    (hordered : span.start ≤ span.stop) (hstop : span.stop ≤ size) (name : String)
    (index : LineIndex) (diagnostic : Diagnostic) :
    (Report.ofDiagnostic name size index diagnostic span).span = span := by
  have hstart : min span.start size = span.start := min_eq_left (hordered.trans hstop)
  show Span.mk (min span.start size) (max (min span.stop size) (min span.start size)) = span
  rw [hstart, min_eq_left hstop, max_eq_left hordered]

/-- Diagnostics in a text are drawn one after the other, each at its place. -/
theorem exists_reports {text : String} {diagnostics : List Diagnostic}
    (h : ∀ diagnostic ∈ diagnostics, ∃ span, diagnostic.span = some span ∧
      span.start ≤ span.stop ∧ span.stop ≤ text.utf8ByteSize)
    (draw : Report → List String) (name : String) :
    ∃ reports : List Report, reports.map (some ·.span) = diagnostics.map Diagnostic.span ∧
      diagnostics.flatMap (diagnosticLines draw name text.utf8ByteSize (.ofText text)) =
        reports.flatMap draw := by
  induction diagnostics with
  | nil => exact ⟨[], rfl, rfl⟩
  | cons diagnostic diagnostics ih =>
    obtain ⟨⟨span, hplace, hordered, hstop⟩, h⟩ := List.forall_mem_cons.mp h
    obtain ⟨reports, hspans, hlines⟩ := ih h
    refine ⟨.ofDiagnostic name text.utf8ByteSize (.ofText text) diagnostic span :: reports,
      ?_, ?_⟩
    · rw [List.map_cons, List.map_cons, hspans, hplace,
        Report.ofDiagnostic_span_of_le hordered hstop]
    · rw [List.flatMap_cons, List.flatMap_cons, hlines, diagnosticLines, hplace]

/-- For people each diagnostic of a parse is drawn at its place, in the order of the diagnostics,
and then they are counted. -/
theorem diagnosticsReport_of_run {text : String} {options : ParseOptions} {document : Document}
    {log : List Event} {next : Cursor}
    (hrun : Document.run .tolerant options text = .done document log next)
    (hstatements : StatementsAt (ArgumentsAt options.maxDepth) (.start text) document.statements)
    (draw : String → Report → List String) (name : String) :
    ∃ reports : List Report,
      reports.map (some ·.span) = (diagnosticsOf log).map Diagnostic.span ∧
        diagnosticsReport draw name text (diagnosticsOf log) =
          reports.flatMap (draw text) ++ summary (diagnosticsOf log) := by
  have hspan := Document.exists_span_of_mem hrun hstatements
  obtain ⟨reports, hspans, hlines⟩ := exists_reports hspan (draw text) name
  exact ⟨reports, hspans, by rw [diagnosticsReport, hlines]⟩

/-! ### Diagnostics in reports -/

/-- All numbers in a list of diagnostics are read back. -/
theorem readsBack_diagnosticsJson {diagnostics : List Diagnostic}
    (h : ∀ diagnostic ∈ diagnostics, diagnostic.Readable) :
    (diagnosticsJson diagnostics).ReadsBack := by
  rw [diagnosticsJson, Json.ReadsBack]
  induction diagnostics with
  | nil => trivial
  | cons diagnostic diagnostics ih =>
    exact ⟨(h diagnostic (by simp)).readsBack, ih fun other hother => h other (by simp [hother])⟩

/-- A list of diagnostics does not nest deep. -/
theorem depth_diagnosticsJson (diagnostics : List Diagnostic) :
    (diagnosticsJson diagnostics).depth ≤ 3 := by
  have hitems : Json.depthOfItems (diagnostics.map Diagnostic.toJson) ≤ 2 := by
    induction diagnostics with
    | nil => exact Nat.zero_le 2
    | cons diagnostic diagnostics ih => exact Nat.max_le.mpr ⟨diagnostic.depth_toJson, ih⟩
  exact Nat.succ_le_succ hitems

/-! ### Members of reports -/

/-- The names of the members of the object that a text holds, in their order. -/
def namesIn? (text : String) : Option (List String) :=
  match Json.Raw.ofText? text with
  | some (.object members) => members.mapM Prod.fst
  | _ => none

/-- The member of a name in the object that a text holds, as it is written. -/
def writtenIn? (text name : String) : Option Json.Raw :=
  match Json.Raw.ofText? text with
  | some (.object members) => members.lookup (some name)
  | _ => none

/-- The value of the member of a name in the object that a text holds. Other members need no
value. -/
def memberIn? (text name : String) : Option Json :=
  (Json.readWithin? (.record [(name, .all)]) text).bind (Json.member? name)

/-- The diagnostics in the object that a text holds. -/
def diagnosticsIn? (text : String) : Option (List Diagnostic) :=
  (memberIn? text "diagnostics").bind (Json.array? Diagnostic.ofJson?)

section

variable {members : List (String × Json)} {name : String} {value : Json}

/-- What is printed of an object is read as it is written. -/
theorem ofText?_printedJson (json : Json) :
    Json.Raw.ofText? (printedJson json) = some json.raw := by
  have hlast : [Jsonc.Trivium.newline].all Jsonc.Trivium.isPlain := rfl
  have htext := json.ofText?_pretty_append hlast
  exact htext

/-- The names of what is printed. -/
theorem namesIn?_printed (members : List (String × Json)) :
    namesIn? (printedJson (.object members)) = some (members.map Prod.fst) := by
  rw [namesIn?, ofText?_printedJson]
  show (Json.rawMembers members).mapM Prod.fst = _
  induction members with
  | nil => rfl
  | cons member members ih => simp [Json.rawMembers, ih]

/-- A member of what is printed. -/
theorem writtenIn?_printed (h : members.lookup name = some value) :
    writtenIn? (printedJson (.object members)) name = some value.raw := by
  rw [writtenIn?, ofText?_printedJson]
  show (Json.rawMembers members).lookup (some name) = _
  induction members with
  | nil => cases h
  | cons member members ih =>
    obtain ⟨other, first⟩ := member
    rw [List.lookup_cons] at h
    have hsome : (some name == some other) = (name == other) := rfl
    rw [Json.rawMembers, List.lookup_cons, hsome]
    cases hname : name == other with
    | true =>
      simp only [hname, Option.some.injEq] at h
      rw [h]
    | false =>
      simp only [hname] at h
      exact ih h

/-- Of the members of an object those of one name are evaluated. -/
theorem memberValues?_of_name {depth : Nat}
    (h : ∀ member ∈ members, member.1 = name → member.2.ReadsBack ∧ member.2.depth ≤ depth) :
    Json.Raw.memberValues? depth (.record [(name, .all)]) (Json.rawMembers members) =
      some (members.filter fun member => member.1 == name) := by
  induction members with
  | nil => rfl
  | cons member members ih =>
    obtain ⟨other, first⟩ := member
    have ih := ih fun member hmember => h member (List.mem_cons_of_mem _ hmember)
    cases hname : other == name with
    | true =>
      obtain ⟨hreads, hdepth⟩ := h (other, first) (by simp) (by simpa using hname)
      have hvalue := Json.value?_raw first hreads hdepth
      simp [Json.rawMembers, Json.Raw.memberValues?, Json.Scope.member?, List.lookup_cons, hname,
        hvalue, ih]
    | false =>
      simp [Json.rawMembers, Json.Raw.memberValues?, Json.Scope.member?, List.lookup_cons, hname,
        ih]

/-- The only member of a name in what is printed is read, whatever stands beside it. -/
theorem memberIn?_printed (hreads : value.ReadsBack) (hdepth : value.depth < Json.depthLimit)
    (honly : members.filter (fun member => member.1 == name) = [(name, value)]) :
    memberIn? (printedJson (.object members)) name = some value := by
  have hvalues : Json.Raw.memberValues? 126 (.record [(name, .all)]) (Json.rawMembers members) =
      some [(name, value)] := by
    rw [← honly]
    refine memberValues?_of_name fun member hmember hname => ?_
    have hin : member ∈ members.filter fun member => member.1 == name :=
      List.mem_filter.mpr ⟨hmember, beq_iff_eq.mpr hname⟩
    rw [honly, List.mem_singleton] at hin
    rw [hin]
    exact ⟨hreads, Nat.le_of_lt_succ hdepth⟩
  have hobject : (Json.object members).raw.value? Json.depthLimit (.record [(name, .all)]) =
      some (.object [(name, value)]) := by
    show (Json.Raw.memberValues? 126 _ (Json.rawMembers members)).map Json.object = _
    rw [hvalues]
    rfl
  rw [memberIn?, Json.readWithin?, ofText?_printedJson, Option.bind_some, hobject]
  simp [Json.member?]

/-- Diagnostics that can be read are read from what is printed. -/
theorem diagnosticsIn?_printed {diagnostics : List Diagnostic}
    (hreadable : ∀ diagnostic ∈ diagnostics, diagnostic.Readable)
    (honly : members.filter (fun member => member.1 == "diagnostics") =
      [("diagnostics", diagnosticsJson diagnostics)]) :
    diagnosticsIn? (printedJson (.object members)) = some diagnostics := by
  have hdepth := Nat.lt_of_le_of_lt (depth_diagnosticsJson diagnostics)
    (show 3 < Json.depthLimit by decide)
  have hmember := memberIn?_printed (readsBack_diagnosticsJson hreadable) hdepth honly
  rw [diagnosticsIn?, hmember, Option.bind_some, diagnosticsJson, Json.array?]
  refine mapM_some fun diagnostic hmem => ?_
  exact Diagnostic.ofJson?_toJson (hreadable diagnostic hmem).context

end

end CommandLine

end Mcfunction
