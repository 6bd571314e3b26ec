import Mcfunction.Proofs.CommandLine.Report
import Mcfunction.Proofs.Modes
import Mcfunction.Proofs.Sexp
import Mcfunction.Proofs.Token

/-!
# What the Program Says of a Text

The commands that parse a text decide on their own whether it is valid: one looks for errors
among the diagnostics, one asks whether there was a document, and one is given the answer by the
parser. They agree, because the strict and the tolerant parse go on in lockstep. The tree of a
document is written in every form, since no promise is broken on the way.

What a report says is told by what a reader of JSON finds in it: the names of its members, the
diagnostics in it, and the tree as it is written. This holds in all surroundings of the program,
whoever takes the arguments apart, draws reports and reads sources.

## Main results

* `Task.output_check`, `Task.output_tolerant`, `Task.output_strict_valid`,
  `Task.output_strict_invalid`, `Task.output_tokens`: what each task leaves behind, given what the
  two parses of the text give.
* `run_agrees`: all commands say the same of a text.
-/

namespace Mcfunction.CommandLine

/-! ### Reports -/

/-- The exit code that a text deserves: 1 if there is an error among its diagnostics. -/
def verdict (result : ParseResult) : Nat :=
  if ∃ diagnostic ∈ result.diagnostics, diagnostic.severity = .error then 1 else 0

/-- The name of the member of a report that holds the tree. -/
def TreeForm.member : TreeForm → String
  | .json => "document"
  | .sexp | .sexpWithRanges => "sexp"

/-- A tree that was written in a form, as it stands in a report: JSON as it is, anything else as a
string. -/
def TreeForm.written? (form : TreeForm) (tree : String) : Option Json.Raw :=
  match form with
  | .json => Json.Raw.ofText? tree
  | .sexp | .sexpWithRanges => some (.scalar (some (.string tree)))

/-- The report has a member for the tree, which holds the tree of the document, and one for the
diagnostics, and no more. -/
structure HoldsTree (form : TreeForm) (text : String) (document : Document) (report : String) :
    Prop where
  /-- The members of the report. -/
  names : namesIn? report = some [form.member, "diagnostics"]
  /-- The tree. -/
  tree : ∃ tree, form.render text document = .ok tree ∧
    ∃ written, form.written? tree = some written ∧ writtenIn? report form.member = some written

/-- What `syntax-check` leaves behind: the exit code that the text deserves, and in JSON a report
that says the same and lists the diagnostics. -/
structure Output.Checks (result : ParseResult) (format : Format) (output : Output) : Prop where
  /-- The exit code tells whether there is an error. -/
  exitCode_eq : output.exitCode = verdict result
  /-- The report says so too. -/
  ok : format = .json → memberIn? output.stdout "ok" = some (.bool (output.exitCode == 0))
  /-- The report lists the diagnostics. -/
  diagnostics : format = .json → diagnosticsIn? output.stdout = some result.diagnostics

/-- What `parse` leaves behind: the exit code that the text deserves, and in JSON the tree and the
diagnostics. -/
structure Output.Parses (text : String) (result : ParseResult) (form : TreeForm) (format : Format)
    (output : Output) : Prop where
  /-- The exit code tells whether there is an error. -/
  exitCode_eq : output.exitCode = verdict result
  /-- The report has the tree. -/
  tree : format = .json → HoldsTree form text result.document output.stdout
  /-- The report lists the diagnostics. -/
  diagnostics : format = .json → diagnosticsIn? output.stdout = some result.diagnostics

/-- What `parse --strict` leaves behind: the exit code that the text deserves, and in JSON either
the tree and no diagnostics, or the first error and no tree. -/
structure Output.ParsesStrictly (text : String) (result : ParseResult) (form : TreeForm)
    (format : Format) (output : Output) : Prop where
  /-- The exit code tells whether there is an error. -/
  exitCode_eq : output.exitCode = verdict result
  /-- Without an error the report has the tree and no diagnostics. -/
  valid : format = .json → output.exitCode = 0 →
    HoldsTree form text result.document output.stdout ∧ diagnosticsIn? output.stdout = some []
  /-- With an error the report has no tree, and of the diagnostics the first error. -/
  invalid : format = .json → output.exitCode ≠ 0 →
    namesIn? output.stdout = some ["diagnostics"] ∧
      ∃ first, result.diagnostics.find? Diagnostic.isError = some first ∧
        diagnosticsIn? output.stdout = some [first]

variable {text name : String} {options : ParseOptions} {result : ParseResult} {form : TreeForm}
  {format : Format} {draw : Drawing}

/-- The program looks for errors as `verdict` does. -/
theorem exitCode_eq_verdict (result : ParseResult) :
    exitCode result.diagnostics = verdict result := by
  simp [exitCode, verdict, Diagnostic.isError]

/-- There is an error if the parser says so. -/
theorem verdict_eq (result : ParseResult) : verdict result = if result.hasErrors then 1 else 0 :=
  (exitCode_eq_verdict result).symm

/-- Without JSON only the exit code tells. -/
theorem Output.ParsesStrictly.of_pretty {output : Output} (h : output.exitCode = verdict result) :
    output.ParsesStrictly text result form .pretty where
  exitCode_eq := h
  valid := by
    intro heq
    cases heq
  invalid := by
    intro heq
    cases heq

/-- A document is printed in every form, unless its text has more bytes than there are offsets. -/
theorem TreeForm.exists_render {room : Nat} {document : Document}
    (h : StatementsAt (ArgumentsAt room) (.start text) document.statements)
    (hsize : text.utf8ByteSize < offsetLimit) (form : TreeForm) :
    ∃ tree, form.render text document = .ok tree := by
  cases form with
  | json => exact ⟨_, rfl⟩
  | sexp => exact (h.toSexp_kept hsize).map
  | sexpWithRanges => exact (h.toSexp_kept hsize).map

/-- The tree is a member of the report, under the name of its form and as the form says. -/
theorem exists_treeMember {document : Document} {tree : String}
    (h : form.render text document = .ok tree) :
    ∃ value, treeMember form text document = .ok (form.member, value) ∧
      form.written? tree = some value.raw := by
  have hstring : ∀ form : TreeForm, form ≠ .json → form.render text document = .ok tree →
      treeMember form text document = .ok ("sexp", .string tree) := by
    intro form hform h
    rw [treeMember, h]
    · rfl
    · exact hform
  cases form with
  | json =>
    refine ⟨document.toJson, rfl, ?_⟩
    rw [← Except.ok.inj h]
    exact document.toJson.ofText?_pretty
  | sexp => exact ⟨.string tree, hstring .sexp (by decide) h, rfl⟩
  | sexpWithRanges => exact ⟨.string tree, hstring .sexpWithRanges (by decide) h, rfl⟩

/-- The report with a tree has the tree and the diagnostics, and no more. -/
theorem HoldsTree.of_treeMember {document : Document} {tree : String} {value : Json}
    (h : form.render text document = .ok tree) (hwritten : form.written? tree = some value.raw)
    (diagnostics : Json) :
    HoldsTree form text document
      (printedJson (.object [(form.member, value), ("diagnostics", diagnostics)])) where
  names := namesIn?_printed _
  tree := ⟨tree, h, _, hwritten, writtenIn?_printed (by rw [List.lookup_cons, beq_self_eq_true])⟩

/-! ### What a parse writes -/

section

variable {parsed : Parsed} {document : Document} {diagnostics : List Diagnostic}
  {sexp ranges strict : Bool}

/-- In JSON a document is written with its tree and its diagnostics. -/
theorem parsedJson_some {member : String × Json}
    (h : treeMember form text document = .ok member) :
    parsedJson form text ⟨some document, diagnostics⟩ = .ok ⟨exitCode diagnostics,
      printedJson (.object [member, ("diagnostics", diagnosticsJson diagnostics)]), []⟩ := by
  unfold parsedJson
  dsimp only
  rw [h]
  rfl

/-- In JSON the diagnostics are all that is written without a document. -/
theorem parsedJson_none :
    parsedJson form text ⟨none, diagnostics⟩ = .ok ⟨exitCode diagnostics,
      printedJson (.object [("diagnostics", diagnosticsJson diagnostics)]), []⟩ :=
  rfl

/-- For people the tree goes to standard output and the diagnostics do not. -/
theorem parsedPretty_some {tree : String} (h : form.render text document = .ok tree) :
    parsedPretty draw form name text ⟨some document, diagnostics⟩ = .ok ⟨exitCode diagnostics,
      printed tree, diagnosticsReport draw name text diagnostics⟩ := by
  unfold parsedPretty
  dsimp only
  rw [h]
  rfl

/-- For people nothing goes to standard output without a document. -/
theorem parsedPretty_none :
    parsedPretty draw form name text ⟨none, diagnostics⟩ = .ok ⟨exitCode diagnostics, "",
      diagnosticsReport draw name text diagnostics⟩ :=
  rfl

/-- `parse` writes in JSON what the parse in its mode gives. -/
theorem Task.output_json (h : Parsed.ofText (modeOf strict) options text = .ok parsed) :
    (Task.parse sexp ranges strict).output draw .json options name text =
      parsedJson (.ofFlags sexp ranges) text parsed := by
  rw [Task.output, h]
  rfl

/-- `parse` writes for people what the parse in its mode gives. -/
theorem Task.output_pretty (h : Parsed.ofText (modeOf strict) options text = .ok parsed) :
    (Task.parse sexp ranges strict).output draw .pretty options name text =
      parsedPretty draw (.ofFlags sexp ranges) name text parsed := by
  rw [Task.output, h]
  rfl

/-- A parse that gives a document exits with what its diagnostics deserve, and reports the tree and
these diagnostics. -/
theorem Task.output_document
    (h : Parsed.ofText (modeOf strict) options text = .ok ⟨some document, diagnostics⟩)
    (hform : ∃ tree, (TreeForm.ofFlags sexp ranges).render text document = .ok tree)
    (hreadable : ∀ diagnostic ∈ diagnostics, diagnostic.Readable) (draw : Drawing)
    (format : Format) (name : String) :
    ∃ output, (Task.parse sexp ranges strict).output draw format options name text = .ok output ∧
      output.exitCode = exitCode diagnostics ∧
      (format = .json → HoldsTree (.ofFlags sexp ranges) text document output.stdout ∧
        diagnosticsIn? output.stdout = some diagnostics) := by
  obtain ⟨tree, htree⟩ := hform
  cases format with
  | json =>
    obtain ⟨value, hmember, hwritten⟩ := exists_treeMember htree
    refine ⟨_, (Task.output_json h).trans (parsedJson_some hmember), rfl, fun _ => ⟨?_, ?_⟩⟩
    · exact .of_treeMember htree hwritten _
    · refine diagnosticsIn?_printed hreadable ?_
      cases sexp <;> cases ranges <;> rfl
  | pretty =>
    refine ⟨_, (Task.output_pretty h).trans (parsedPretty_some htree), rfl, ?_⟩
    intro heq
    cases heq

end

/-! ### One task -/

/-- `syntax-check` reports what the tolerant parse found. -/
theorem Task.output_check (h : Document.parseTolerant text options = .ok result)
    (hreadable : ∀ diagnostic ∈ result.diagnostics, diagnostic.Readable) (draw : Drawing)
    (format : Format) (name : String) :
    ∃ output, Task.check.output draw format options name text = .ok output ∧
      output.Checks result format := by
  refine ⟨checked draw format name text result, by rw [Task.output, h]; rfl, ?_⟩
  have hok : (!result.hasErrors) = (verdict result == 0) := by
    rw [verdict_eq]
    cases result.hasErrors <;> rfl
  cases format with
  | json =>
    have hcode : (checked draw .json name text result).exitCode = verdict result :=
      exitCode_eq_verdict result
    constructor
    · exact hcode
    · intro _
      rw [hcode, ← hok]
      exact memberIn?_printed trivial (show 0 < Json.depthLimit by decide) rfl
    · intro _
      exact diagnosticsIn?_printed hreadable rfl
  | pretty =>
    constructor
    · exact exitCode_eq_verdict result
    · intro heq
      cases heq
    · intro heq
      cases heq

/-- `parse` writes the tree that the tolerant parse gives and reports what it found. -/
theorem Task.output_tolerant {sexp ranges : Bool}
    (h : Document.parseTolerant text options = .ok result)
    (hform : ∃ tree, (TreeForm.ofFlags sexp ranges).render text result.document = .ok tree)
    (hreadable : ∀ diagnostic ∈ result.diagnostics, diagnostic.Readable) (draw : Drawing)
    (format : Format) (name : String) :
    ∃ output, (Task.parse sexp ranges false).output draw format options name text = .ok output ∧
      output.Parses text result (.ofFlags sexp ranges) format := by
  have hparsed : Parsed.ofText (modeOf false) options text =
      .ok ⟨some result.document, result.diagnostics⟩ := by
    show (Document.parseTolerant text options).map _ = _
    rw [h]
    rfl
  obtain ⟨output, houtput, hcode, hreport⟩ :=
    Task.output_document hparsed hform hreadable draw format name
  exact ⟨output, houtput, hcode.trans (exitCode_eq_verdict result),
    fun hjson => (hreport hjson).1, fun hjson => (hreport hjson).2⟩

/-- Without an error `parse --strict` writes the tree and reports nothing. -/
theorem Task.output_strict_valid {sexp ranges : Bool}
    (h : Document.parse text options = .ok (.ok result.document))
    (hvalid : result.hasErrors = false)
    (hform : ∃ tree, (TreeForm.ofFlags sexp ranges).render text result.document = .ok tree)
    (draw : Drawing) (format : Format) (name : String) :
    ∃ output, (Task.parse sexp ranges true).output draw format options name text = .ok output ∧
      output.ParsesStrictly text result (.ofFlags sexp ranges) format := by
  have hparsed : Parsed.ofText (modeOf true) options text = .ok ⟨some result.document, []⟩ := by
    show (Document.parse text options).map _ = _
    rw [h]
    rfl
  have hverdict : verdict result = 0 := by
    rw [verdict_eq, hvalid]
    rfl
  obtain ⟨output, houtput, hcode, hreport⟩ :=
    Task.output_document hparsed hform (by simp) draw format name
  refine ⟨output, houtput, hcode.trans hverdict.symm, fun hjson _ => hreport hjson, ?_⟩
  intro _ hne
  exact absurd hcode hne

/-- With an error `parse --strict` reports the first one and writes no tree. -/
theorem Task.output_strict_invalid {sexp ranges : Bool} {error : ParseError}
    (h : Document.parse text options = .ok (.error error))
    (hfirst : result.diagnostics.find? Diagnostic.isError = some error.toDiagnostic)
    (hreadable : ∀ diagnostic ∈ result.diagnostics, diagnostic.Readable) (draw : Drawing)
    (format : Format) (name : String) :
    ∃ output, (Task.parse sexp ranges true).output draw format options name text = .ok output ∧
      output.ParsesStrictly text result (.ofFlags sexp ranges) format := by
  have hparsed : Parsed.ofText (modeOf true) options text = .ok ⟨none, [error.toDiagnostic]⟩ := by
    show (Document.parse text options).map _ = _
    rw [h]
    rfl
  have hcode : exitCode [error.toDiagnostic] = 1 := by
    rw [exitCode, List.any_cons, error.toDiagnostic_isError]
    rfl
  have hverdict : verdict result = 1 := by
    have hany : result.hasErrors := by
      rw [ParseResult.hasErrors, ← List.isSome_find?, hfirst]
      rfl
    rw [verdict_eq, if_pos hany]
  have hfirstReadable : ∀ diagnostic ∈ [error.toDiagnostic], diagnostic.Readable := by
    intro diagnostic hmem
    rw [List.mem_singleton.mp hmem]
    exact hreadable _ (List.mem_of_find?_eq_some hfirst)
  cases format with
  | json =>
    refine ⟨_, (Task.output_json hparsed).trans parsedJson_none, hcode.trans hverdict.symm,
      ?_, ?_⟩
    · intro _ hzero
      cases hcode.symm.trans hzero
    · intro _ _
      exact ⟨namesIn?_printed _, _, hfirst, diagnosticsIn?_printed hfirstReadable rfl⟩
  | pretty =>
    exact ⟨_, (Task.output_pretty hparsed).trans parsedPretty_none,
      .of_pretty (hcode.trans hverdict.symm)⟩

/-- `tokens` writes the tokens of a text that a strict parse can read. -/
theorem Task.output_tokens {document : Document}
    (h : Document.parse text options = .ok (.ok document)) (draw : Drawing) (format : Format)
    (options' : ParseOptions) (name : String) :
    ∃ output, Task.tokens.output draw format options' name text = .ok output ∧
      output.exitCode = 0 := by
  obtain ⟨tokens, -, -, htokens, -⟩ := Document.exists_tokens h
  refine ⟨tokenized draw format name text, rfl, ?_⟩
  unfold tokenized
  rw [htokens]
  cases format <;> rfl

/-! ### The whole program -/

/-- The arguments ask for a task on the text that an operand names, with a name for the format of
the results or none, and with a limit on nesting. -/
def Surroundings.Asks {m : Type → Type} (surroundings : Surroundings m) (arguments : List String)
    (task : Task) (operand : String) (output : Option String) (maxDepth : Nat) : Prop :=
  surroundings.readArguments arguments = .ok ⟨.process task operand, output, maxDepth⟩

/-- Arguments that ask for a task on a text make the program write what the task leaves. -/
theorem runIn_of_asks {surroundings : Surroundings Id} {operand : String} {task : Task}
    {arguments : List String} {format : Option String} {maxDepth : Nat} {output : Output}
    (hread : surroundings.readSource (.ofOperand operand) = .ok text)
    (hasks : surroundings.Asks arguments task operand format maxDepth)
    (houtput : task.output surroundings.draw (.resolve surroundings.isTerminal format) ⟨maxDepth⟩
      (Source.ofOperand operand).name text = .ok output) :
    Id.run (runIn surroundings arguments) = output := by
  have hrun : runIn surroundings arguments = surroundings.process task operand
      (.resolve surroundings.isTerminal format) ⟨maxDepth⟩ := by
    rw [runIn, hasks]
  rw [hrun, Surroundings.process]
  show Id.run (match surroundings.readSource (.ofOperand operand) with
    | .error error => _
    | .ok text => _) = output
  rw [hread]
  simp only [houtput]
  rfl

/-- **All commands agree on what is valid.** Take an operand that names a text that can be read, and
a limit on nesting. Whoever takes the arguments apart, draws reports and looks at them:
`syntax-check`, `parse` and `parse --strict` exit with the same code, with a tree in any form and
results in any format: 1 if there is an error among the diagnostics of the text, and 0 otherwise.
What `syntax-check` writes as JSON says the same and holds the diagnostics that are also in what
`parse` writes; what `parse --strict` writes holds the tree and no diagnostics, or no tree and the
first error alone. When it exits with 0, so does `tokens`. -/
theorem run_agrees {surroundings : Surroundings Id} {operand : String}
    (hread : surroundings.readSource (.ofOperand operand) = .ok text)
    (hsize : text.utf8ByteSize < offsetLimit) (maxDepth : Nat) :
    ∃ result, Document.parseTolerant text ⟨maxDepth⟩ = .ok result ∧
      (∀ arguments output,
        surroundings.Asks arguments .check operand output maxDepth →
          (Id.run (runIn surroundings arguments)).Checks result
            (.resolve surroundings.isTerminal output)) ∧
      (∀ arguments sexp ranges output,
        surroundings.Asks arguments (.parse sexp ranges false) operand output maxDepth →
          (Id.run (runIn surroundings arguments)).Parses text result (.ofFlags sexp ranges)
            (.resolve surroundings.isTerminal output)) ∧
      (∀ arguments sexp ranges output,
        surroundings.Asks arguments (.parse sexp ranges true) operand output maxDepth →
          (Id.run (runIn surroundings arguments)).ParsesStrictly text result
            (.ofFlags sexp ranges) (.resolve surroundings.isTerminal output)) ∧
      ∀ strict sexp ranges output tokens output' maxDepth',
        surroundings.Asks strict (.parse sexp ranges true) operand output maxDepth →
        surroundings.Asks tokens .tokens operand output' maxDepth' →
          (Id.run (runIn surroundings strict)).exitCode = 0 →
            (Id.run (runIn surroundings tokens)).exitCode = 0 := by
  obtain ⟨document, log, next, hrun, hstatements, hparse⟩ := Document.exists_parses text ⟨maxDepth⟩
  have htolerant : Document.parseTolerant text ⟨maxDepth⟩ =
      .ok ⟨document, diagnosticsOf log⟩ := by
    rw [Document.parseTolerant, hrun]
  have hform := TreeForm.exists_render hstatements hsize
  have hreadable := Document.readable_of_mem hrun hstatements hsize
  have hstrict : ∀ sexp ranges format, ∃ output,
      (Task.parse sexp ranges true).output surroundings.draw format ⟨maxDepth⟩
          (Source.ofOperand operand).name text = .ok output ∧
        output.ParsesStrictly text ⟨document, diagnosticsOf log⟩ (.ofFlags sexp ranges) format := by
    intro sexp ranges format
    rcases hparse with ⟨hparse, hnone⟩ | ⟨error, hparse, hfirst⟩
    · have hvalid := hasErrors_eq document log
      rw [hnone] at hvalid
      exact Task.output_strict_valid hparse hvalid (hform _) _ format _
    · have herror := find?_diagnosticsOf log
      rw [hfirst] at herror
      exact Task.output_strict_invalid hparse herror hreadable _ format _
  refine ⟨_, htolerant, ?_, ?_, ?_, ?_⟩
  · intro arguments output hasks
    obtain ⟨output, houtput, hchecks⟩ := Task.output_check htolerant hreadable surroundings.draw
      (.resolve surroundings.isTerminal output) (Source.ofOperand operand).name
    rwa [runIn_of_asks hread hasks houtput]
  · intro arguments sexp ranges output hasks
    obtain ⟨output, houtput, hparses⟩ := Task.output_tolerant htolerant
      (hform (.ofFlags sexp ranges)) hreadable surroundings.draw
      (.resolve surroundings.isTerminal output) (Source.ofOperand operand).name
    rwa [runIn_of_asks hread hasks houtput]
  · intro arguments sexp ranges output hasks
    obtain ⟨output, houtput, hparses⟩ :=
      hstrict sexp ranges (.resolve surroundings.isTerminal output)
    rwa [runIn_of_asks hread hasks houtput]
  · intro strict sexp ranges output tokens output' maxDepth' hasksStrict hasksTokens hzero
    obtain ⟨outcome, houtput, hparses⟩ :=
      hstrict sexp ranges (.resolve surroundings.isTerminal output)
    rw [runIn_of_asks hread hasksStrict houtput, hparses.exitCode_eq, verdict_eq,
      hasErrors_eq] at hzero
    rcases hparse with ⟨hparse, -⟩ | ⟨error, -, hfirst⟩
    · obtain ⟨outcome, houtput, hcode⟩ := Task.output_tokens hparse surroundings.draw
        (.resolve surroundings.isTerminal output') ⟨maxDepth'⟩ (Source.ofOperand operand).name
      rwa [runIn_of_asks hread hasksTokens houtput]
    · rw [hfirst] at hzero
      cases hzero

/-! ### A run on two files -/

/-- Two files: one is without an error, the other names a selector that there is none of. -/
def sampleFiles : Source → Id (Except FileError String)
  | .file "good.mcfunction" => .ok "say hi"
  | .file "bad.mcfunction" => .ok "x @q"
  | _ => .error .notFound

/-- What the program writes when there are two files. -/
def sampleRun (arguments : List String) : Output :=
  Id.run (runIn (.usual sampleFiles) arguments)

/-- A printed text, line by line. -/
def linesPrinted (lines : List String) : String :=
  String.join (lines.map printed)

/-- The lines on the selector that there is none of. -/
def sampleLines : List String :=
  ["  \"diagnostics\": [",
    "    \x7b",
    "      \"id\": \"MCF2009\",",
    "      \"severity\": \"error\",",
    "      \"message\": \"unknown selector target '@q'\",",
    "      \"span\": \x7b",
    "        \"start\": 2,",
    "        \"end\": 4",
    "      \x7d,",
    "      \"context\": \x7b",
    "        \"expected\": \"one of @p @a @r @s @e @n\"",
    "      \x7d",
    "    \x7d",
    "  ]"]

/-- All commands on both files: what `run_agrees` says of each, and what it writes. -/
theorem run_agrees_say : ∃ good bad,
    Document.parseTolerant "say hi" ⟨3⟩ = .ok good ∧
    Document.parseTolerant "x @q" ⟨3⟩ = .ok bad ∧
    (let output := sampleRun ["--max-depth=3", "check", "bad.mcfunction"]
    output.Checks bad .json ∧ output.exitCode = 1 ∧ output.stdout =
      linesPrinted (["\x7b", "  \"ok\": false,"] ++ sampleLines ++ ["\x7d"])) ∧
    (let output := sampleRun ["parse", "--sexp", "--max-depth", "3", "bad.mcfunction"]
    output.Parses "x @q" bad .sexp .json ∧ output.exitCode = 1 ∧ output.stdout =
      linesPrinted (["\x7b",
        "  \"sexp\": \"(source_file\\n  (command\\n    (command_name)\\n    (ERROR)))\","] ++
          sampleLines ++ ["\x7d"])) ∧
    (let output := sampleRun ["parse", "--strict", "--max-depth", "3", "bad.mcfunction"]
    output.ParsesStrictly "x @q" bad .json .json ∧ output.exitCode = 1 ∧ output.stdout =
      linesPrinted (["\x7b"] ++ sampleLines ++ ["\x7d"])) ∧
    (let output := sampleRun ["parse", "--strict", "--sexp", "--max-depth=3", "good.mcfunction"]
    output.ParsesStrictly "say hi" good .sexp .json ∧ output.exitCode = 0 ∧ output.stdout =
      linesPrinted ["\x7b",
        "  \"sexp\": \"(source_file\\n  (command\\n    (command_name)\\n    (keyword)))\",",
        "  \"diagnostics\": []", "\x7d"]) ∧
    (sampleRun ["tokens", "good.mcfunction", "--output", "pretty"]).exitCode = 0 := by
  obtain ⟨bad, hbad, hcheck, hparse, hstrict, -⟩ :=
    @run_agrees "x @q" (.usual sampleFiles) "bad.mcfunction" rfl (by decide) 3
  obtain ⟨good, hgood, -, -, hvalid, htokens⟩ :=
    @run_agrees "say hi" (.usual sampleFiles) "good.mcfunction" rfl (by decide) 3
  have hasks : (Surroundings.usual sampleFiles).Asks
      ["parse", "--strict", "--sexp", "--max-depth=3", "good.mcfunction"]
      (.parse true false true) "good.mcfunction" none 3 := rfl
  refine ⟨good, bad, hgood, hbad, ⟨hcheck _ none rfl, ?_, ?_⟩,
    ⟨hparse _ true false none rfl, ?_, ?_⟩, ⟨hstrict _ false false none rfl, ?_, ?_⟩,
    ⟨hvalid _ true false none hasks, ?_, ?_⟩,
    htokens _ true false none _ (some "pretty") 256 hasks rfl ?_⟩
  all_goals decide +kernel

end Mcfunction.CommandLine
