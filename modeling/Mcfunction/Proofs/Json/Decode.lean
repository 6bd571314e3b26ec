import Mcfunction.Proofs.Json.Record

/-!
# Trees Read Back from JSON

What is written of a value or an argument is read back if every number in it that must be there
is finite, and not at all otherwise; offsets that are not finite are dropped
(`NbtValue.ofJson?_toJson`, `Argument.ofJson?_toJson`). The induction is on the tree.

The readers are given fuel. The depth of the JSON value is enough of it, because each level of
the tree is at least one level of the JSON value.
-/

namespace Mcfunction

/-- Whether every number that must be there is finite. -/
def finite (nodes : List Node) : Bool :=
  nodes.all fun node => node.number?.all Binary64.isFinite

/-- No nodes have numbers that are not finite. -/
@[simp] theorem finite_nil : finite [] = true := rfl

/-- The numbers of several nodes are finite if those of the first and of the others are. -/
@[simp] theorem finite_cons (node : Node) (nodes : List Node) :
    finite (node :: nodes) = (node.number?.all Binary64.isFinite && finite nodes) := rfl

/-- The numbers of two lists of nodes are finite if those of both are. -/
@[simp] theorem finite_append (nodes others : List Node) :
    finite (nodes ++ others) = (finite nodes && finite others) :=
  List.all_append

/-- The numbers of the nodes of several parts are finite if those of each part are. -/
@[simp] theorem finite_flatMap {α : Type} (f : α → List Node) (values : List α) :
    finite (values.flatMap f) = values.all fun value => finite (f value) :=
  List.all_flatMap

/-- Keys have no numbers. -/
@[simp] theorem finite_key (key : NbtKey) : finite key.nodes = true := by
  cases key <;> rfl

/-! ### NBT -/

/-- One reading after another, each under its own condition. -/
theorem mapM_cons_given {α β : Type} {read : β → Option α} {json : β} {jsons : List β}
    {holds allHold : Bool} {value : α} {values : List α} (h : read json = given holds value)
    (hs : jsons.mapM read = given allHold values) :
    (json :: jsons).mapM read = given (holds && allHold) (value :: values) := by
  rw [List.mapM_cons, h, hs]
  cases holds <;> cases allHold <;> rfl

/-- A value is written with at least one level of nesting. -/
theorem NbtValue.depth_pos (value : NbtValue) : 0 < value.toJson.depth := by
  cases value <;> rw [NbtValue.toJson, Json.depth_tagged (by simp)] <;>
    exact Json.depth_pos (by simp)

mutual

/-- A value is read back if its numbers are finite. -/
theorem NbtValue.ofJson?_toJson (value : NbtValue) {fuel : Nat} (h : value.toJson.depth ≤ fuel) :
    NbtValue.ofJson? fuel value.toJson = given (finite value.nodes) value := by
  obtain ⟨fuel, rfl⟩ := Nat.exists_eq_add_one.mpr (Nat.lt_of_lt_of_le value.depth_pos h)
  rw [NbtValue.ofJson?, NbtValue.ofJsonWith]
  cases value with
  | string literal =>
    rw [NbtValue.toJson, Json.variant?_tagged (by simp)]
    simp [NbtValue.nodes, Node.number?]
  | number number =>
    rw [NbtValue.toJson, Json.variant?_tagged (by simp)]
    simp [NbtValue.nodes, Node.number?]
  | resource location =>
    rw [NbtValue.toJson, Json.variant?_tagged (by simp)]
    simp [NbtValue.nodes, Node.number?]
  | list list =>
    rw [NbtValue.toJson, Json.depth_tagged (by simp)] at h
    rw [NbtValue.toJson, Json.variant?_tagged (by simp)]
    simp [NbtValue.nodes, Node.number?, NbtList.ofJsonWith_toJson list h]
  | compound compound =>
    rw [NbtValue.toJson, Json.depth_tagged (by simp)] at h
    rw [NbtValue.toJson, Json.variant?_tagged (by simp)]
    simp [NbtValue.nodes, Node.number?, NbtCompound.ofJsonWith_toJson compound h]
  | boolean boolean =>
    rw [NbtValue.toJson, Json.variant?_tagged (by simp)]
    simp [NbtValue.nodes, Node.number?]
  | interpolated argument =>
    rw [NbtValue.toJson, Json.variant?_tagged (by simp)]
    simp [NbtValue.nodes, Node.number?]
  | error node =>
    rw [NbtValue.toJson, Json.variant?_tagged (by simp)]
    simp [NbtValue.nodes, Node.number?]

/-- The elements of a list are read back. -/
theorem NbtItems.ofJsonWith_toJson (items : NbtItems) {fuel : Nat}
    (h : items.toJson.depth ≤ fuel) :
    NbtItems.ofJsonWith (NbtValue.ofJson? fuel) items.toJson =
      given (finite items.nodes) items := by
  cases items with
  | pairs elements =>
    have hdepth : Json.depthOfItems (NbtPair.allToJson elements) ≤ fuel := by
      simp only [NbtItems.toJson, Json.depth, Json.depthOfMembers] at h
      omega
    have hread := NbtPair.mapM_allToJson elements hdepth
    simp [NbtItems.ofJsonWith, NbtItems.toJson, Json.paired?, Json.parts?, Json.unique?,
      Json.name?, Json.array?, hread, NbtItems.nodes]
  | values elements =>
    have hdepth : Json.depthOfItems (NbtValue.allToJson elements) ≤ fuel := by
      simp only [NbtItems.toJson, Json.depth, Json.depthOfMembers] at h
      omega
    have hread := NbtValue.mapM_allToJson elements hdepth
    simp [NbtItems.ofJsonWith, NbtItems.toJson, Json.paired?, Json.parts?, Json.unique?,
      Json.name?, Json.array?, hread, NbtItems.nodes]

/-- A list is read back if the numbers in it are finite. -/
theorem NbtList.ofJsonWith_toJson (list : NbtList) {fuel : Nat}
    (h : list.toJson.depth ≤ fuel + 1) :
    NbtList.ofJsonWith (NbtValue.ofJson? fuel) list.toJson = given (finite list.nodes) list := by
  obtain ⟨items, span⟩ := list
  have hdepth : items.toJson.depth ≤ fuel := by
    simp only [NbtList.toJson, Json.depth, Json.depthOfMembers] at h
    omega
  have hread := NbtItems.ofJsonWith_toJson items hdepth
  simp [NbtList.ofJsonWith, NbtList.toJson, Json.parts?, Json.unique?, Json.required, hread,
    NbtList.nodes, Node.number?]

/-- A compound is read back if the numbers in it are finite. -/
theorem NbtCompound.ofJsonWith_toJson (compound : NbtCompound) {fuel : Nat}
    (h : compound.toJson.depth ≤ fuel + 1) :
    NbtCompound.ofJsonWith (NbtValue.ofJson? fuel) compound.toJson =
      given (finite compound.nodes) compound := by
  obtain ⟨pairs, span⟩ := compound
  have hdepth : Json.depthOfItems (NbtPair.allToJson pairs) ≤ fuel := by
    simp only [NbtCompound.toJson, Json.depth, Json.depthOfMembers] at h
    omega
  have hread := NbtPair.mapM_allToJson pairs hdepth
  simp [NbtCompound.ofJsonWith, NbtCompound.toJson, Json.parts?, Json.unique?, Json.required,
    Json.array?, hread, NbtCompound.nodes, Node.number?]

/-- A pair is read back if the numbers in it are finite. -/
theorem NbtPair.ofJsonWith_toJson (pair : NbtPair) {fuel : Nat} (h : pair.toJson.depth ≤ fuel) :
    NbtPair.ofJsonWith (NbtValue.ofJson? fuel) pair.toJson = given (finite pair.nodes) pair := by
  obtain ⟨key, operator, value, span⟩ := pair
  have hdepth : value.toJson.depth ≤ fuel := by
    simp only [NbtPair.toJson, Json.depth, Json.depthOfMembers] at h
    omega
  have hread := NbtValue.ofJson?_toJson value hdepth
  simp [NbtPair.ofJsonWith, NbtPair.toJson, Json.parts?, Json.unique?, Json.required, hread,
    NbtPair.nodes, Node.number?]

/-- Several pairs are read back. -/
theorem NbtPair.mapM_allToJson (pairs : List NbtPair) {fuel : Nat}
    (h : Json.depthOfItems (NbtPair.allToJson pairs) ≤ fuel) :
    (NbtPair.allToJson pairs).mapM (NbtPair.ofJsonWith (NbtValue.ofJson? fuel)) =
      given (finite (NbtPair.allNodes pairs)) pairs := by
  cases pairs with
  | nil => rfl
  | cons pair pairs =>
    rw [NbtPair.allToJson, Json.depthOfItems] at h
    have hpair := NbtPair.ofJsonWith_toJson pair (show pair.toJson.depth ≤ fuel by omega)
    have hpairs := NbtPair.mapM_allToJson pairs
      (show Json.depthOfItems (NbtPair.allToJson pairs) ≤ fuel by omega)
    rw [NbtPair.allToJson, NbtPair.allNodes, finite_append]
    exact mapM_cons_given hpair hpairs

/-- Several values are read back. -/
theorem NbtValue.mapM_allToJson (values : List NbtValue) {fuel : Nat}
    (h : Json.depthOfItems (NbtValue.allToJson values) ≤ fuel) :
    (NbtValue.allToJson values).mapM (NbtValue.ofJson? fuel) =
      given (finite (NbtValue.allNodes values)) values := by
  cases values with
  | nil => rfl
  | cons value values =>
    rw [NbtValue.allToJson, Json.depthOfItems] at h
    have hvalue := NbtValue.ofJson?_toJson value (show value.toJson.depth ≤ fuel by omega)
    have hvalues := NbtValue.mapM_allToJson values
      (show Json.depthOfItems (NbtValue.allToJson values) ≤ fuel by omega)
    rw [NbtValue.allToJson, NbtValue.allNodes, finite_append]
    exact mapM_cons_given hvalue hvalues

end

/-- A list is read back if its numbers are finite. -/
@[simp] theorem NbtList.ofJson?_toJson (list : NbtList) :
    NbtList.ofJson? list.toJson = given (finite list.nodes) list :=
  NbtList.ofJsonWith_toJson list (Nat.le_succ _)

/-- A compound is read back if its numbers are finite. -/
@[simp] theorem NbtCompound.ofJson?_toJson (compound : NbtCompound) :
    NbtCompound.ofJson? compound.toJson = given (finite compound.nodes) compound :=
  NbtCompound.ofJsonWith_toJson compound (Nat.le_succ _)

/-- A path suffix is read back if its numbers are finite. -/
@[simp] theorem PathSuffix.ofJson?_toJson (suffix : PathSuffix) :
    PathSuffix.ofJson? suffix.toJson = given (finite suffix.nodes) suffix := by
  cases suffix with
  | index list =>
    rw [PathSuffix.ofJson?, PathSuffix.toJson, Json.variant?_tagged (by simp)]
    simp [PathSuffix.nodes]
  | filter compound =>
    rw [PathSuffix.ofJson?, PathSuffix.toJson, Json.variant?_tagged (by simp)]
    simp [PathSuffix.nodes]

/-- A segment of a path is read back if its numbers are finite. -/
@[simp] theorem PathSegment.ofJson?_toJson (segment : PathSegment) :
    PathSegment.ofJson? segment.toJson = given (finite segment.nodes) segment := by
  have hsuffixes := mapM_given fun suffix (_ : suffix ∈ segment.suffixes) =>
    (PathSuffix.ofJson?_toJson suffix : _ = given _ (id suffix))
  simp [PathSegment.ofJson?, PathSegment.toJson, Json.parts?, Json.unique?, Json.required,
    Json.array?, hsuffixes, PathSegment.nodes, Node.number?]

/-- A path is read back if its numbers are finite. -/
@[simp] theorem NbtPath.ofJson?_toJson (path : NbtPath) :
    NbtPath.ofJson? path.toJson =
      given (finite (path.segments.flatMap PathSegment.nodes)) path := by
  have hsegments := mapM_given fun segment (_ : segment ∈ path.segments) =>
    (PathSegment.ofJson?_toJson segment : _ = given _ (id segment))
  simp [NbtPath.ofJson?, NbtPath.toJson, Json.parts?, Json.unique?, Json.required, Json.array?,
    hsegments]

/-- A selector is read back if its numbers are finite. -/
@[simp] theorem Selector.ofJson?_toJson (selector : Selector) :
    Selector.ofJson? selector.toJson = given (finite selector.nodes) selector := by
  obtain ⟨target, filter, span⟩ := selector
  cases filter with
  | none =>
    simp [Selector.ofJson?, Selector.toJson, Json.parts?, Json.unique?, Json.required,
      Json.optional, Json.nullable, Selector.nodes, Node.number?]
  | some list =>
    have hnull : list.toJson ≠ .null := by
      cases list
      simp [NbtList.toJson]
    simp [Selector.ofJson?, Selector.toJson, Json.parts?, Json.unique?, Json.required,
      Json.optional, Json.nullable, Selector.nodes, Node.number?]

/-! ### Commands and statements -/

/-- An argument is written with at least one level of nesting. -/
theorem Argument.depth_pos (argument : Argument) : 0 < argument.toJson.depth := by
  cases argument <;> rw [Argument.toJson, Json.depth_tagged (by simp)] <;>
    exact Json.depth_pos (by simp)

/-- The numbers of coordinates are finite if those of their parts are. -/
theorem finite_coordinates (coordinates : Coordinates) :
    finite (Argument.coordinates coordinates).nodes =
      coordinates.parts.toList.all fun part => (Node.part part).number?.all Binary64.isFinite := by
  simp [Argument.nodes, Node.number?, Triple.toList]

mutual

/-- An argument is read back if its numbers are finite, without the offsets that are not. -/
theorem Argument.ofJson?_toJson (argument : Argument) {fuel : Nat}
    (h : argument.toJson.depth ≤ fuel) :
    Argument.ofJson? fuel argument.toJson =
      given (finite argument.nodes) argument.withFiniteOffsets := by
  obtain ⟨fuel, rfl⟩ := Nat.exists_eq_add_one.mpr (Nat.lt_of_lt_of_le argument.depth_pos h)
  rw [Argument.ofJson?, Argument.ofJsonWith]
  cases argument with
  | coordinates coordinates =>
    rw [Argument.toJson, Json.variant?_tagged (by simp), finite_coordinates]
    simp [Argument.withFiniteOffsets]
  | string literal =>
    rw [Argument.toJson, Json.variant?_tagged (by simp)]
    simp [Argument.nodes, Node.number?, Argument.withFiniteOffsets]
  | number number =>
    rw [Argument.toJson, Json.variant?_tagged (by simp)]
    simp [Argument.nodes, Node.number?, Argument.withFiniteOffsets]
  | resource location =>
    rw [Argument.toJson, Json.variant?_tagged (by simp)]
    simp [Argument.nodes, Node.number?, Argument.withFiniteOffsets]
  | selector selector =>
    rw [Argument.toJson, Json.variant?_tagged (by simp)]
    simp [Argument.nodes, Node.number?, Argument.withFiniteOffsets]
  | list list =>
    rw [Argument.toJson, Json.variant?_tagged (by simp)]
    simp [Argument.nodes, Node.number?, Argument.withFiniteOffsets]
  | compound compound =>
    rw [Argument.toJson, Json.variant?_tagged (by simp)]
    simp [Argument.nodes, Node.number?, Argument.withFiniteOffsets]
  | boolean boolean =>
    rw [Argument.toJson, Json.variant?_tagged (by simp)]
    simp [Argument.nodes, Node.number?, Argument.withFiniteOffsets]
  | fakePlayer player =>
    rw [Argument.toJson, Json.variant?_tagged (by simp)]
    simp [Argument.nodes, Node.number?, Argument.withFiniteOffsets]
  | path path =>
    rw [Argument.toJson, Json.variant?_tagged (by simp)]
    simp [Argument.nodes, Node.number?, Argument.withFiniteOffsets]
  | run clause =>
    rw [Argument.toJson, Json.depth_tagged (by simp)] at h
    rw [Argument.toJson, Json.variant?_tagged (by simp)]
    simp [Argument.nodes, Node.number?, Argument.withFiniteOffsets,
      RunClause.ofJsonWith_toJson clause h]
  | keyword word =>
    rw [Argument.toJson, Json.variant?_tagged (by simp)]
    simp [Argument.nodes, Node.number?, Argument.withFiniteOffsets]
  | interpolated argument =>
    rw [Argument.toJson, Json.variant?_tagged (by simp)]
    simp [Argument.nodes, Node.number?, Argument.withFiniteOffsets]
  | error node =>
    rw [Argument.toJson, Json.variant?_tagged (by simp)]
    simp [Argument.nodes, Node.number?, Argument.withFiniteOffsets]

/-- A run clause is read back if the numbers in it are finite. -/
theorem RunClause.ofJsonWith_toJson (clause : RunClause) {fuel : Nat}
    (h : clause.toJson.depth ≤ fuel + 1) :
    RunClause.ofJsonWith (Argument.ofJson? fuel) clause.toJson =
      given (finite clause.nodes) clause.withFiniteOffsets := by
  obtain ⟨subcommand, span⟩ := clause
  have hdepth : subcommand.toJson.depth ≤ fuel := by
    simp only [RunClause.toJson, Json.depth, Json.depthOfMembers] at h
    omega
  have hread := Subcommand.ofJsonWith_toJson subcommand hdepth
  simp [RunClause.ofJsonWith, RunClause.toJson, Json.parts?, Json.unique?, Json.required, hread,
    RunClause.nodes, Node.number?, RunClause.withFiniteOffsets]

/-- A subcommand is read back if the numbers in it are finite. -/
theorem Subcommand.ofJsonWith_toJson (subcommand : Subcommand) {fuel : Nat}
    (h : subcommand.toJson.depth ≤ fuel) :
    Subcommand.ofJsonWith (Argument.ofJson? fuel) subcommand.toJson =
      given (finite subcommand.nodes) subcommand.withFiniteOffsets := by
  cases subcommand with
  | command plain =>
    rw [Subcommand.toJson, Json.depth_tagged (by simp)] at h
    have hread := Command.ofJsonWith_toJson plain (Nat.le_succ_of_le h)
    rw [Subcommand.ofJsonWith, Subcommand.toJson, Json.variant?_tagged (by simp)]
    simp [hread, Subcommand.nodes, Subcommand.withFiniteOffsets]
  | macroCommand line =>
    rw [Subcommand.toJson, Json.depth_tagged (by simp)] at h
    have hread := MacroCommand.ofJsonWith_toJson line (Nat.le_succ_of_le h)
    rw [Subcommand.ofJsonWith, Subcommand.toJson, Json.variant?_tagged (by simp)]
    simp [hread, Subcommand.nodes, Subcommand.withFiniteOffsets]

/-- A command is read back if the numbers in it are finite. -/
theorem Command.ofJsonWith_toJson (plain : Command) {fuel : Nat}
    (h : plain.toJson.depth ≤ fuel + 1) :
    Command.ofJsonWith (Argument.ofJson? fuel) plain.toJson =
      given (finite plain.nodes) plain.withFiniteOffsets := by
  obtain ⟨name, arguments, span⟩ := plain
  have hdepth : Json.depthOfItems (Argument.allToJson arguments) ≤ fuel := by
    simp only [Command.toJson, Json.depth, Json.depthOfMembers] at h
    omega
  have hread := Argument.mapM_allToJson arguments hdepth
  simp [Command.ofJsonWith, Command.toJson, Json.parts?, Json.unique?, Json.required,
    Json.array?, hread, Command.nodes, Node.number?, Command.withFiniteOffsets]

/-- A macro command is read back if the numbers in it are finite. -/
theorem MacroCommand.ofJsonWith_toJson (line : MacroCommand) {fuel : Nat}
    (h : line.toJson.depth ≤ fuel + 1) :
    MacroCommand.ofJsonWith (Argument.ofJson? fuel) line.toJson =
      given (finite line.nodes) line.withFiniteOffsets := by
  obtain ⟨name, arguments, span⟩ := line
  have hdepth : Json.depthOfItems (Argument.allToJson arguments) ≤ fuel := by
    simp only [MacroCommand.toJson, Json.depth, Json.depthOfMembers] at h
    omega
  have hread := Argument.mapM_allToJson arguments hdepth
  simp [MacroCommand.ofJsonWith, MacroCommand.toJson, Json.parts?, Json.unique?, Json.required,
    Json.array?, hread, MacroCommand.nodes, Node.number?, MacroCommand.withFiniteOffsets]

/-- Several arguments are read back. -/
theorem Argument.mapM_allToJson (arguments : List Argument) {fuel : Nat}
    (h : Json.depthOfItems (Argument.allToJson arguments) ≤ fuel) :
    (Argument.allToJson arguments).mapM (Argument.ofJson? fuel) =
      given (finite (Argument.allNodes arguments)) (Argument.allWithFiniteOffsets arguments) := by
  cases arguments with
  | nil => rfl
  | cons argument arguments =>
    rw [Argument.allToJson, Json.depthOfItems] at h
    have hargument := Argument.ofJson?_toJson argument (show argument.toJson.depth ≤ fuel by omega)
    have harguments := Argument.mapM_allToJson arguments
      (show Json.depthOfItems (Argument.allToJson arguments) ≤ fuel by omega)
    rw [Argument.allToJson, Argument.allNodes, finite_append, Argument.allWithFiniteOffsets]
    exact mapM_cons_given hargument harguments

end

/-- A command is read back if its numbers are finite, without the offsets that are not. -/
@[simp] theorem Command.ofJson?_toJson (plain : Command) :
    Command.ofJson? plain.toJson = given (finite plain.nodes) plain.withFiniteOffsets :=
  Command.ofJsonWith_toJson plain (Nat.le_succ _)

/-- A macro command is read back if its numbers are finite, without the offsets that are not. -/
@[simp] theorem MacroCommand.ofJson?_toJson (line : MacroCommand) :
    MacroCommand.ofJson? line.toJson = given (finite line.nodes) line.withFiniteOffsets :=
  MacroCommand.ofJsonWith_toJson line (Nat.le_succ _)

/-- A statement is read back if its numbers are finite, without the offsets that are not. -/
@[simp] theorem Statement.ofJson?_toJson (statement : Statement) :
    Statement.ofJson? statement.toJson =
      given (finite statement.nodes) statement.withFiniteOffsets := by
  cases statement with
  | command plain =>
    rw [Statement.ofJson?, Statement.toJson, Json.variant?_tagged (by simp)]
    simp [Statement.nodes, Node.number?, Statement.withFiniteOffsets]
  | macroCommand line =>
    rw [Statement.ofJson?, Statement.toJson, Json.variant?_tagged (by simp)]
    simp [Statement.nodes, Node.number?, Statement.withFiniteOffsets]
  | comment line =>
    rw [Statement.ofJson?, Statement.toJson, Json.variant?_tagged (by simp)]
    simp [Statement.nodes, Node.number?, Statement.withFiniteOffsets]
  | error node =>
    rw [Statement.ofJson?, Statement.toJson, Json.variant?_tagged (by simp)]
    simp [Statement.nodes, Node.number?, Statement.withFiniteOffsets]

/-- A document is read back if its numbers are finite, without the offsets that are not. -/
theorem Document.ofJson?_toJson (document : Document) :
    Document.ofJson? document.toJson =
      given (finite document.nodes) document.withFiniteOffsets := by
  have hstatements := mapM_given fun statement (_ : statement ∈ document.statements) =>
    Statement.ofJson?_toJson statement
  simp [Document.ofJson?, Document.toJson, Json.parts?, Json.unique?, Json.required, Json.array?,
    hstatements, Document.nodes, Document.withFiniteOffsets]

end Mcfunction
