import Mcfunction.Proofs.Json.Decode
import Mcfunction.Proofs.Json.Text

/-!
# The JSON Form of a Document Read Back

Main result (`Document.ofJsonText?_toJson`): the JSON form of a document, compact or over several
lines, is read back as the document exactly if all numbers in it are finite. An infinity, or what
is no number, is written as `null`. As a number that must be there it is not read back, and then
neither is the document; as an offset it is dropped.

The document is not assumed to come from a text. But its JSON form must not nest deeper than what
is read, and its spans and finite numbers must be read back from their numerals; the numeral of a
number with many digits may be read as a number next to it.
-/

namespace Mcfunction

/-! ### Offsets -/

/-- Whether all offsets are finite. -/
def finiteOffsets (nodes : List Node) : Bool :=
  nodes.all fun node => node.offset?.all Binary64.isFinite

/-- No nodes have offsets that are not finite. -/
@[simp] theorem finiteOffsets_nil : finiteOffsets [] = true := rfl

/-- The offsets of several nodes are finite if those of the first and of the others are. -/
@[simp] theorem finiteOffsets_cons (node : Node) (nodes : List Node) :
    finiteOffsets (node :: nodes) =
      (node.offset?.all Binary64.isFinite && finiteOffsets nodes) := rfl

/-- The offsets of two lists of nodes are finite if those of both are. -/
@[simp] theorem finiteOffsets_append (nodes others : List Node) :
    finiteOffsets (nodes ++ others) = (finiteOffsets nodes && finiteOffsets others) :=
  List.all_append

/-- The offsets of the nodes of several parts are finite if those of each part are. -/
@[simp] theorem finiteOffsets_flatMap {α : Type} (f : α → List Node) (values : List α) :
    finiteOffsets (values.flatMap f) = values.all fun value => finiteOffsets (f value) :=
  List.all_flatMap

/-- Keys have no offsets. -/
@[simp] theorem finiteOffsets_key (key : NbtKey) : finiteOffsets key.nodes = true := by
  cases key <;> rfl

mutual

/-- There are no offsets in NBT. -/
theorem NbtValue.finiteOffsets_nodes (value : NbtValue) : finiteOffsets value.nodes = true := by
  cases value with
  | list list => simpa [NbtValue.nodes, Node.offset?] using NbtList.finiteOffsets_nodes list
  | compound compound =>
    simpa [NbtValue.nodes, Node.offset?] using NbtCompound.finiteOffsets_nodes compound
  | _ => rfl

/-- The items of a list have no offsets. -/
theorem NbtItems.finiteOffsets_nodes (items : NbtItems) : finiteOffsets items.nodes = true := by
  cases items with
  | pairs elements => exact NbtPair.finiteOffsets_allNodes elements
  | values elements => exact NbtValue.finiteOffsets_allNodes elements

/-- Lists have no offsets. -/
theorem NbtList.finiteOffsets_nodes (list : NbtList) : finiteOffsets list.nodes = true := by
  obtain ⟨items, span⟩ := list
  simpa [NbtList.nodes, Node.offset?] using NbtItems.finiteOffsets_nodes items

/-- Compounds have no offsets. -/
theorem NbtCompound.finiteOffsets_nodes (compound : NbtCompound) :
    finiteOffsets compound.nodes = true := by
  obtain ⟨pairs, span⟩ := compound
  simpa [NbtCompound.nodes, Node.offset?] using NbtPair.finiteOffsets_allNodes pairs

/-- Pairs have no offsets. -/
theorem NbtPair.finiteOffsets_nodes (pair : NbtPair) : finiteOffsets pair.nodes = true := by
  obtain ⟨key, operator, value, span⟩ := pair
  simpa [NbtPair.nodes, Node.offset?] using NbtValue.finiteOffsets_nodes value

/-- Several pairs have no offsets. -/
theorem NbtPair.finiteOffsets_allNodes (pairs : List NbtPair) :
    finiteOffsets (NbtPair.allNodes pairs) = true := by
  cases pairs with
  | nil => rfl
  | cons pair pairs =>
    rw [NbtPair.allNodes, finiteOffsets_append, NbtPair.finiteOffsets_nodes pair,
      NbtPair.finiteOffsets_allNodes pairs, Bool.and_self]

/-- Several values have no offsets. -/
theorem NbtValue.finiteOffsets_allNodes (values : List NbtValue) :
    finiteOffsets (NbtValue.allNodes values) = true := by
  cases values with
  | nil => rfl
  | cons value values =>
    rw [NbtValue.allNodes, finiteOffsets_append, NbtValue.finiteOffsets_nodes value,
      NbtValue.finiteOffsets_allNodes values, Bool.and_self]

end

attribute [simp] NbtList.finiteOffsets_nodes NbtCompound.finiteOffsets_nodes

/-- Path suffixes have no offsets. -/
theorem PathSuffix.finiteOffsets_nodes (suffix : PathSuffix) :
    finiteOffsets suffix.nodes = true := by
  cases suffix with
  | index list => exact list.finiteOffsets_nodes
  | filter compound => exact compound.finiteOffsets_nodes

/-- Segments of paths have no offsets. -/
theorem PathSegment.finiteOffsets_nodes (segment : PathSegment) :
    finiteOffsets segment.nodes = true := by
  simp [PathSegment.nodes, Node.offset?, PathSuffix.finiteOffsets_nodes]

/-- Selectors have no offsets. -/
theorem Selector.finiteOffsets_nodes (selector : Selector) :
    finiteOffsets selector.nodes = true := by
  cases hfilter : selector.filter <;> simp [Selector.nodes, Node.offset?, hfilter]

/-- An offset is kept if and only if it is finite, or missing already. -/
theorem filter_isFinite_eq_self_iff (offset : Option Binary64) :
    offset.filter Binary64.isFinite = offset ↔ offset.all Binary64.isFinite = true := by
  cases offset with
  | none => simp
  | some value => cases h : value.isFinite <;> simp [Option.filter, h]

/-- Nothing is dropped from a part with a finite offset. -/
theorem CoordinatePart.withFiniteOffsets_eq_self_iff (part : CoordinatePart) :
    part.withFiniteOffsets = part ↔ (Node.part part).offset?.all Binary64.isFinite = true := by
  cases part with
  | absolute value suffix span => simp [withFiniteOffsets, Node.offset?]
  | relative offset span => simp [withFiniteOffsets, Node.offset?, filter_isFinite_eq_self_iff]
  | localTo offset span => simp [withFiniteOffsets, Node.offset?, filter_isFinite_eq_self_iff]

/-- Coordinates keep all offsets if and only if these are finite. -/
theorem Coordinates.withFiniteOffsets_eq_self_iff (coordinates : Coordinates) :
    coordinates.withFiniteOffsets = coordinates ↔
      finiteOffsets (coordinates.parts.toList.map .part) = true := by
  obtain ⟨⟨x, y, z⟩, span⟩ := coordinates
  simp [withFiniteOffsets, Triple.map, Triple.toList,
    CoordinatePart.withFiniteOffsets_eq_self_iff]

mutual

/-- Nothing is dropped from an argument if its offsets are finite. -/
theorem Argument.withFiniteOffsets_eq_self_iff (argument : Argument) :
    argument.withFiniteOffsets = argument ↔ finiteOffsets argument.nodes = true := by
  cases argument with
  | coordinates coordinates =>
    simp [Argument.withFiniteOffsets, Argument.nodes, Node.offset?,
      Coordinates.withFiniteOffsets_eq_self_iff]
  | run clause =>
    simp [Argument.withFiniteOffsets, Argument.nodes, Node.offset?,
      RunClause.withFiniteOffsets_eq_self_iff clause]
  | selector selector =>
    simp [Argument.withFiniteOffsets, Argument.nodes, Node.offset?,
      Selector.finiteOffsets_nodes]
  | path path =>
    simp [Argument.withFiniteOffsets, Argument.nodes, Node.offset?,
      PathSegment.finiteOffsets_nodes]
  | _ => simp [Argument.withFiniteOffsets, Argument.nodes, Node.offset?]

/-- A run clause keeps all offsets if and only if these are finite. -/
theorem RunClause.withFiniteOffsets_eq_self_iff (clause : RunClause) :
    clause.withFiniteOffsets = clause ↔ finiteOffsets clause.nodes = true := by
  obtain ⟨subcommand, span⟩ := clause
  simp [RunClause.withFiniteOffsets, RunClause.nodes, Node.offset?,
    Subcommand.withFiniteOffsets_eq_self_iff subcommand]

/-- A subcommand keeps all offsets if and only if these are finite. -/
theorem Subcommand.withFiniteOffsets_eq_self_iff (subcommand : Subcommand) :
    subcommand.withFiniteOffsets = subcommand ↔ finiteOffsets subcommand.nodes = true := by
  cases subcommand with
  | command plain =>
    simp [Subcommand.withFiniteOffsets, Subcommand.nodes,
      Command.withFiniteOffsets_eq_self_iff plain]
  | macroCommand line =>
    simp [Subcommand.withFiniteOffsets, Subcommand.nodes,
      MacroCommand.withFiniteOffsets_eq_self_iff line]

/-- A command keeps all offsets if and only if these are finite. -/
theorem Command.withFiniteOffsets_eq_self_iff (plain : Command) :
    plain.withFiniteOffsets = plain ↔ finiteOffsets plain.nodes = true := by
  obtain ⟨name, arguments, span⟩ := plain
  simp [Command.withFiniteOffsets, Command.nodes, Node.offset?,
    Argument.allWithFiniteOffsets_eq_self_iff arguments]

/-- A macro command keeps all offsets if and only if these are finite. -/
theorem MacroCommand.withFiniteOffsets_eq_self_iff (line : MacroCommand) :
    line.withFiniteOffsets = line ↔ finiteOffsets line.nodes = true := by
  obtain ⟨name, arguments, span⟩ := line
  simp [MacroCommand.withFiniteOffsets, MacroCommand.nodes, Node.offset?,
    Argument.allWithFiniteOffsets_eq_self_iff arguments]

/-- Arguments keep all offsets if and only if these are finite. -/
theorem Argument.allWithFiniteOffsets_eq_self_iff (arguments : List Argument) :
    Argument.allWithFiniteOffsets arguments = arguments ↔
      finiteOffsets (Argument.allNodes arguments) = true := by
  cases arguments with
  | nil => simp [Argument.allWithFiniteOffsets, Argument.allNodes]
  | cons argument arguments =>
    simp [Argument.allWithFiniteOffsets, Argument.allNodes,
      Argument.withFiniteOffsets_eq_self_iff argument,
      Argument.allWithFiniteOffsets_eq_self_iff arguments]

end

/-- A statement keeps all offsets if and only if these are finite. -/
theorem Statement.withFiniteOffsets_eq_self_iff (statement : Statement) :
    statement.withFiniteOffsets = statement ↔ finiteOffsets statement.nodes = true := by
  cases statement with
  | command plain =>
    simp [withFiniteOffsets, nodes, Node.offset?, Command.withFiniteOffsets_eq_self_iff]
  | macroCommand line =>
    simp [withFiniteOffsets, nodes, Node.offset?, MacroCommand.withFiniteOffsets_eq_self_iff]
  | comment line => simp [withFiniteOffsets, nodes, Node.offset?]
  | error node => simp [withFiniteOffsets, nodes, Node.offset?]

/-- The numbers among nodes are finite if and only if the number of each node is. -/
theorem all_filterMap_isFinite (number? : Node → Option Binary64) (nodes : List Node) :
    (nodes.filterMap number?).all Binary64.isFinite =
      nodes.all fun node => (number? node).all Binary64.isFinite := by
  induction nodes with
  | nil => rfl
  | cons node nodes ih => cases h : number? node <;> simp [h, ih]

namespace Document

/-- Nothing is dropped from a document if its offsets are finite. -/
theorem withFiniteOffsets_eq_self_iff (document : Document) :
    document.withFiniteOffsets = document ↔
      document.offsets.all Binary64.isFinite = true := by
  have hoffsets : document.offsets.all Binary64.isFinite = finiteOffsets document.nodes :=
    all_filterMap_isFinite Node.offset? document.nodes
  obtain ⟨statements⟩ := document
  rw [hoffsets, withFiniteOffsets, nodes, finiteOffsets_flatMap, mk.injEq]
  clear hoffsets
  change statements.map _ = statements ↔ statements.all _ = true
  induction statements with
  | nil => simp
  | cons statement statements ih =>
    rw [List.map_cons, List.cons.injEq, List.all_cons, Bool.and_eq_true,
      Statement.withFiniteOffsets_eq_self_iff, ih]

/-! ### The text read back -/

/-- What is read of the JSON form of a document is all of it. -/
theorem value?_scope (document : Document) (hreads : document.toJson.ReadsBack)
    (h : document.toJson.depth ≤ Json.depthLimit) :
    document.toJson.raw.value? Json.depthLimit Document.scope = some document.toJson := by
  have hdepth : (Json.array (document.statements.map Statement.toJson)).depth ≤ 126 := by
    simp only [toJson, Json.depth, Json.depthOfMembers, Json.depthLimit] at h ⊢
    omega
  have hstatements := Json.value?_raw _ hreads.1 hdepth
  simp only [toJson, Json.raw, Json.rawMembers, Json.depthLimit, Json.Raw.value?,
    Json.Raw.memberValues?, scope, Json.Scope.member?, List.lookup_cons_self] at hstatements ⊢
  rw [hstatements]
  rfl

/-- The JSON form of a document is read back from its texts. -/
theorem readWithin?_toJson {document : Document} {text : String}
    (hdepth : document.toJson.depth ≤ Json.depthLimit) (hreads : document.toJson.ReadsBack)
    (htext : text = document.toJson.compact ∨ text = document.toJson.pretty) :
    Json.readWithin? Document.scope text = some document.toJson := by
  have hraw : Json.Raw.ofText? text = some document.toJson.raw := by
    rcases htext with rfl | rfl
    · exact document.toJson.ofText?_compact
    · exact document.toJson.ofText?_pretty
  rw [Json.readWithin?, hraw, Option.bind_some, value?_scope document hreads hdepth]

/-- What is read back from the JSON form of a document. If a number that must be there is not
finite, nothing is read. Otherwise it is the document without the offsets that are not finite,
so it is the whole document exactly if all numbers are finite. A number that is not finite is
written as `null`. -/
theorem ofJsonText?_toJson (document : Document)
    (hdepth : document.toJson.depth ≤ Json.depthLimit) (hreads : document.toJson.ReadsBack)
    (text : String) (htext : text = document.toJson.compact ∨ text = document.toJson.pretty) :
    (ofJsonText? text = some document ↔
      (∀ value ∈ document.numbers, value.isFinite) ∧ ∀ value ∈ document.offsets, value.isFinite) ∧
    ofJsonText? text =
      (if document.numbers.all Binary64.isFinite then some document.withFiniteOffsets else none) ∧
    ∀ value : Binary64, value.isFinite = false →
      (Json.number value).compact = "null" ∧ (Json.number value).pretty = "null" := by
  have hnumbers : document.numbers.all Binary64.isFinite = finite document.nodes :=
    all_filterMap_isFinite Node.number? document.nodes
  have hread : ofJsonText? text =
      if document.numbers.all Binary64.isFinite then some document.withFiniteOffsets else none := by
    rw [ofJsonText?, readWithin?_toJson hdepth hreads htext, Option.bind_some, ofJson?_toJson,
      hnumbers]
    rfl
  refine ⟨?_, hread, ?_⟩
  · rw [hread, ← List.all_eq_true, ← List.all_eq_true]
    cases document.numbers.all Binary64.isFinite with
    | false => simp
    | true => simp [withFiniteOffsets_eq_self_iff]
  · intro value hvalue
    simp only [Json.number, hvalue]
    exact ⟨rfl, rfl⟩

/-- One and a half. -/
def oneAndHalf : Binary64 :=
  ⟨0x3ff8000000000000⟩

/-- One and a half is read back from its numeral. -/
theorem first?_oneAndHalf : Json.Lexeme.first? (Json.numberText oneAndHalf).toList =
    some (.scalar (some (.double oneAndHalf)), []) := by
  have htext : (Json.numberText oneAndHalf).toList = [] ++ (['1'] ++ '.' :: (['5'] ++ [])) := by
    decide +kernel
  have hscaled : Binary64.ofScaled? 15 (-1) = some oneAndHalf := by decide +kernel
  have hmagnitude : Binary64.ofMagnitude false oneAndHalf.magnitude = oneAndHalf := by
    decide +kernel
  have hvalue : Json.fractionValue false ['1'] ['5'] none = some (.double oneAndHalf) := by
    have hwhole : Json.absorb 0 ['1'] = (1, 1) := by decide
    have hfraction : Json.absorb 1 ['5'] = (15, 1) := by decide
    simp [Json.fractionValue, hwhole, hfraction, Json.scaled?, hscaled, hmagnitude]
  have hnumeral := (Json.takes_numeral?_fraction (show [] ∈ Json.minusSigns by decide)
    (show Json.isWhole ['1'] by decide) (List.all_eq_true.mp (by decide))
    (show ['5'] ≠ [] by decide) (List.all_eq_true.mp (by decide))
    (show Json.Opens [] by simp [Json.Opens]) Json.takes_exponent?_nil).self
  rw [decide_eq_false (by decide), hvalue, ← htext] at hnumeral
  rw [htext] at hnumeral ⊢
  rw [List.nil_append, List.cons_append, Json.Lexeme.first?_bare (by decide), if_pos (by simp)]
  exact congrArg _ hnumeral

/-- `tp 1.5 ~1e999 ~1.5 ^`, a command with an infinite offset. -/
def farTeleport : Document :=
  let parts : Triple CoordinatePart :=
    ⟨.relative (some (.infinity false)) ⟨7, 13⟩, .relative (some oneAndHalf) ⟨14, 18⟩,
      .localTo none ⟨19, 20⟩⟩
  ⟨[.command ⟨⟨"tp", ⟨0, 2⟩⟩,
    [.number ⟨oneAndHalf, none, "1.5", ⟨3, 6⟩⟩, .coordinates ⟨parts, ⟨7, 20⟩⟩], ⟨0, 20⟩⟩]⟩

/-- What is read back of the infinite offset: none. -/
theorem ofJsonText?_toJson_farTeleport :
    farTeleport.toJson.depth ≤ Json.depthLimit ∧ farTeleport.toJson.ReadsBack ∧
      ofJsonText? farTeleport.toJson.compact = some farTeleport.withFiniteOffsets ∧
      ofJsonText? farTeleport.toJson.compact ≠ some farTeleport := by
  have hdepth : farTeleport.toJson.depth ≤ Json.depthLimit := by decide +kernel
  have hfinite : Json.number oneAndHalf = .double oneAndHalf := rfl
  have hinfinite : Json.number (.infinity false) = .null := rfl
  have hreads : farTeleport.toJson.ReadsBack := by
    simp [farTeleport, Document.toJson, Statement.toJson, Command.toJson, Argument.allToJson,
      Argument.toJson, Number.toJson, Coordinates.toJson, Triple.toList, CoordinatePart.toJson,
      TextRun.toJson, Span.toJson, Json.tagged, Json.optional, Json.natural, Json.ReadsBack,
      Json.ItemsReadBack, Json.MembersReadBack, Json.fits, hfinite, hinfinite, first?_oneAndHalf]
  obtain ⟨hwhole, hread, -⟩ := ofJsonText?_toJson farTeleport hdepth hreads _ (.inl rfl)
  have hnumbers : farTeleport.numbers.all Binary64.isFinite = true := by decide +kernel
  rw [hnumbers, if_pos rfl] at hread
  refine ⟨hdepth, hreads, hread, ?_⟩
  intro hsame
  have hoffset : Binary64.infinity false ∈ farTeleport.offsets := by decide +kernel
  exact absurd ((hwhole.mp hsame).2 _ hoffset) (by decide)

end Document

end Mcfunction
