import Mcfunction.Proofs.Placeholders.Nodes
import Mcfunction.Proofs.Spans.Outline

/-!
# The Order of Placeholders

The walk over the nodes of a tree meets its placeholders in the order in which they stand in the
text, and no two of them share any text.

## Main results

* `Statement.placeholders_at`: the placeholders of a statement stand in order between the two ends
  of the statement.
-/

namespace Mcfunction

/-- The places of the placeholders among nodes. -/
def placeholderOutlines (nodes : List Node) : List Outline :=
  (placeholders nodes).map fun node => .leaf node.span

/-- The places of placeholders among two lists of nodes are those among each. -/
@[simp] theorem placeholderOutlines_append (nodes nodes' : List Node) :
    placeholderOutlines (nodes ++ nodes') =
      placeholderOutlines nodes ++ placeholderOutlines nodes' := by
  rw [placeholderOutlines, placeholders_append, List.map_append]
  rfl

namespace Outline

variable {c d e : Cursor} {parts parts' : List Outline} {span : Span} {outline : Outline}

/-- Two rows of nodes, one after the other, are a row. -/
theorem AllAt.append (h : AllAt parts c d) (h' : AllAt parts' d e) :
    AllAt (parts ++ parts') c e := by
  induction parts generalizing c with
  | nil => exact h'.weaken_left h
  | cons part parts ih =>
      obtain ⟨a, b, hca, hpart, hparts⟩ := h
      exact ⟨a, b, hca, hpart, ih hparts⟩

/-- Parts that stand inside one node. -/
theorem AllAt.inside (h : AllAt [outline] c d)
    (hinner : ∀ {a b}, outline.At a b → AllAt parts a b) : AllAt parts c d := by
  obtain ⟨a, b, hca, hat, hbd⟩ := h
  exact ((hinner hat).weaken_left hca).weaken_right hbd

/-- What holds for each of several parts holds for all of them. -/
theorem AllAt.flatMap {α : Type} {outline : α → Outline} {inner : α → List Outline} {xs : List α}
    (hinner : ∀ x {a b}, (outline x).At a b → AllAt (inner x) a b)
    (h : AllAt (xs.map outline) c d) : AllAt (xs.flatMap inner) c d := by
  induction xs generalizing c with
  | nil => exact h
  | cons x xs ih =>
      obtain ⟨a, b, hca, hat, hrest⟩ := h
      exact ((hinner x hat).weaken_left hca).append (ih hrest)

end Outline

open Outline

variable {c d : Cursor}

/-! ### NBT -/

mutual

/-- The placeholders in a value stand in a row inside of it. -/
theorem NbtValue.placeholders_at {c d : Cursor} :
    ∀ {value : NbtValue}, value.outline.At c d → AllAt (placeholderOutlines value.nodes) c d
  | .list _, h => NbtList.placeholders_at h
  | .compound _, h => NbtCompound.placeholders_at h
  | .error _, h => .single h
  | .string _, h | .number _, h | .resource _, h | .boolean _, h | .interpolated _, h => h.lt.le

/-- The placeholders among the items of a list stand in a row. -/
theorem NbtItems.placeholders_at {c d : Cursor} :
    ∀ {items : NbtItems}, AllAt items.outlines c d → AllAt (placeholderOutlines items.nodes) c d
  | .pairs _, h => NbtPair.allPlaceholders_at h
  | .values _, h => NbtValue.allPlaceholders_at h

/-- The placeholders in a list stand in a row inside of it. -/
theorem NbtList.placeholders_at {c d : Cursor} :
    ∀ {list : NbtList}, list.outline.At c d → AllAt (placeholderOutlines list.nodes) c d
  | ⟨_, _⟩, h => NbtItems.placeholders_at h.2.2

/-- The placeholders in a compound stand in a row inside of it. -/
theorem NbtCompound.placeholders_at {c d : Cursor} :
    ∀ {compound : NbtCompound}, compound.outline.At c d →
      AllAt (placeholderOutlines compound.nodes) c d
  | ⟨_, _⟩, h => NbtPair.allPlaceholders_at h.2.2

/-- The placeholders in a pair stand in a row inside of it. -/
theorem NbtPair.placeholders_at {c d : Cursor} :
    ∀ {pair : NbtPair}, pair.outline.At c d → AllAt (placeholderOutlines pair.nodes) c d
  | ⟨key, operator, value, span⟩, h => by
      obtain ⟨-, -, a, b, hca, hkey, hvalue⟩ := h
      rw [placeholderOutlines, NbtPair.placeholders_nodes]
      exact (hvalue.inside NbtValue.placeholders_at).weaken_left (hca.trans hkey.lt.le)

/-- The placeholders in several pairs stand in a row. -/
theorem NbtPair.allPlaceholders_at {c d : Cursor} :
    ∀ {pairs : List NbtPair}, AllAt (NbtPair.outlines pairs) c d →
      AllAt (placeholderOutlines (NbtPair.allNodes pairs)) c d
  | [], h => h
  | pair :: pairs, h => by
      obtain ⟨a, b, hca, hpair, hpairs⟩ := h
      rw [NbtPair.allNodes, placeholderOutlines_append]
      exact ((NbtPair.placeholders_at hpair).weaken_left hca).append
        (NbtPair.allPlaceholders_at hpairs)

/-- The placeholders in several values stand in a row. -/
theorem NbtValue.allPlaceholders_at {c d : Cursor} :
    ∀ {values : List NbtValue}, AllAt (NbtValue.outlines values) c d →
      AllAt (placeholderOutlines (NbtValue.allNodes values)) c d
  | [], h => h
  | value :: values, h => by
      obtain ⟨a, b, hca, hvalue, hvalues⟩ := h
      rw [NbtValue.allNodes, placeholderOutlines_append]
      exact ((NbtValue.placeholders_at hvalue).weaken_left hca).append
        (NbtValue.allPlaceholders_at hvalues)

end

/-- The places of placeholders among the nodes of several parts are those of each part in turn. -/
theorem placeholderOutlines_flatMap {α : Type} (nodes : α → List Node) (parts : List α) :
    placeholderOutlines (parts.flatMap nodes) =
      parts.flatMap fun part => placeholderOutlines (nodes part) := by
  rw [placeholderOutlines, placeholders_flatMap, List.map_flatMap]
  rfl

/-- The placeholders in a path suffix stand in a row inside of it. -/
theorem PathSuffix.placeholders_at {suffix : PathSuffix} (h : suffix.outline.At c d) :
    AllAt (placeholderOutlines suffix.nodes) c d := by
  cases suffix with
  | index list => exact NbtList.placeholders_at h
  | filter compound => exact NbtCompound.placeholders_at h

/-- The placeholders in a segment of a path stand in a row inside of it. -/
theorem PathSegment.placeholders_at {segment : PathSegment} (h : segment.outline.At c d) :
    AllAt (placeholderOutlines segment.nodes) c d := by
  obtain ⟨-, -, a, b, hca, hname, hsuffixes⟩ := h
  rw [placeholderOutlines, PathSegment.placeholders_nodes, List.map_flatMap]
  exact (hsuffixes.flatMap fun _ => PathSuffix.placeholders_at).weaken_left
    (hca.trans hname.lt.le)

/-- The placeholders in a selector stand in a row inside of it. -/
theorem Selector.placeholders_at {selector : Selector} (h : selector.outline.At c d) :
    AllAt (placeholderOutlines selector.nodes) c d := by
  obtain ⟨target, filter, span⟩ := selector
  cases filter with
  | none => exact h.lt.le
  | some list => exact h.2.2.inside NbtList.placeholders_at

/-! ### Commands -/

mutual

/-- The placeholders in an argument stand in a row inside of it. -/
theorem Argument.placeholders_at {c d : Cursor} :
    ∀ {argument : Argument}, argument.outline.At c d →
      AllAt (placeholderOutlines argument.nodes) c d
  | .selector _, h => Selector.placeholders_at h
  | .list _, h => NbtList.placeholders_at h
  | .compound _, h => NbtCompound.placeholders_at h
  | .path path, h => by
      have hpath : placeholderOutlines (Argument.path path).nodes =
          placeholderOutlines (path.segments.flatMap PathSegment.nodes) := rfl
      rw [hpath, placeholderOutlines_flatMap]
      exact h.2.2.flatMap fun _ => PathSegment.placeholders_at
  | .run _, h => RunClause.placeholders_at h
  | .error _, h => .single h
  | .coordinates coordinates, h => h.lt.le
  | .string _, h | .number _, h | .resource _, h | .boolean _, h | .fakePlayer _, h
  | .keyword _, h | .interpolated _, h => h.lt.le

/-- The placeholders in a run clause stand in a row inside of it. -/
theorem RunClause.placeholders_at {c d : Cursor} :
    ∀ {clause : RunClause}, clause.outline.At c d → AllAt (placeholderOutlines clause.nodes) c d
  | ⟨_, _⟩, h => h.2.2.inside Subcommand.placeholders_at

/-- The placeholders in a subcommand stand in a row inside of it. -/
theorem Subcommand.placeholders_at {c d : Cursor} :
    ∀ {subcommand : Subcommand}, subcommand.outline.At c d →
      AllAt (placeholderOutlines subcommand.nodes) c d
  | .command _, h => Command.placeholders_at h
  | .macroCommand _, h => MacroCommand.placeholders_at h

/-- The placeholders in a command stand in a row inside of it. -/
theorem Command.placeholders_at {c d : Cursor} :
    ∀ {command : Command}, command.outline.At c d →
      AllAt (placeholderOutlines command.nodes) c d
  | ⟨_, _, _⟩, h => by
      obtain ⟨-, -, a, b, hca, hname, harguments⟩ := h
      exact (Argument.allPlaceholders_at harguments).weaken_left (hca.trans hname.lt.le)

/-- The placeholders in a macro command stand in a row inside of it. -/
theorem MacroCommand.placeholders_at {c d : Cursor} :
    ∀ {command : MacroCommand}, command.outline.At c d →
      AllAt (placeholderOutlines command.nodes) c d
  | ⟨_, _, _⟩, h => by
      obtain ⟨-, -, a, b, hca, hname, harguments⟩ := h
      exact (Argument.allPlaceholders_at harguments).weaken_left (hca.trans hname.lt.le)

/-- The placeholders in several arguments stand in a row. -/
theorem Argument.allPlaceholders_at {c d : Cursor} :
    ∀ {arguments : List Argument}, AllAt (Argument.outlines arguments) c d →
      AllAt (placeholderOutlines (Argument.allNodes arguments)) c d
  | [], h => h
  | argument :: arguments, h => by
      obtain ⟨a, b, hca, hargument, harguments⟩ := h
      rw [Argument.allNodes, placeholderOutlines_append]
      exact ((Argument.placeholders_at hargument).weaken_left hca).append
        (Argument.allPlaceholders_at harguments)

end

/-- The placeholders of a statement stand in order between the two ends of the statement. -/
theorem Statement.placeholders_at {statement : Statement} (h : statement.outline.At c d) :
    AllAt (placeholderOutlines statement.nodes) c d := by
  cases statement with
  | command plain => exact Command.placeholders_at h
  | macroCommand line => exact MacroCommand.placeholders_at h
  | comment line => exact h.lt.le
  | error node => exact .single h

/-- The placeholders of several statements stand in order. -/
theorem Document.placeholders_pairwise {document : Document}
    (h : AllAt (document.statements.map Statement.outline) c d) :
    (placeholders document.nodes).Pairwise fun node later =>
      node.span.stop ≤ later.span.start := by
  have hall : AllAt (placeholderOutlines document.nodes) c d := by
    rw [Document.nodes, placeholderOutlines_flatMap]
    exact h.flatMap fun _ => Statement.placeholders_at
  have hpairwise := hall.pairwise
  rwa [placeholderOutlines, List.pairwise_map] at hpairwise

end Mcfunction
