import Mcfunction.Tree.Basic

/-!
# Nesting

How deep a tree nests: the largest number of lists, compounds and run clauses, one inside the
other. A filter of a selector and the suffixes of a path count like all lists and compounds.
-/

namespace Mcfunction

/-- The largest of several depths. -/
def deepest {α : Type} (nest : α → Nat) (parts : List α) : Nat :=
  (parts.map nest).foldr max 0

/-- The deepest of several parts is the first or one of the others. -/
theorem lt_deepest_cons_iff {α : Type} {nest : α → Nat} {part : α} {parts : List α} {n : Nat} :
    n < deepest nest (part :: parts) ↔ n < nest part ∨ n < deepest nest parts := by
  have hmax : deepest nest (part :: parts) = max (nest part) (deepest nest parts) := rfl
  omega

/-- Some part is deeper than `n` if the deepest is, and the other way round. -/
theorem lt_deepest_iff {α : Type} {nest : α → Nat} {parts : List α} {n : Nat} :
    n < deepest nest parts ↔ ∃ part ∈ parts, n < nest part := by
  induction parts with
  | nil => simp [deepest]
  | cons part parts ih => simp [lt_deepest_cons_iff, ih]

/-- The deepest part is within `n` if and only if each part is. -/
theorem deepest_le_iff {α : Type} {nest : α → Nat} {parts : List α} {n : Nat} :
    deepest nest parts ≤ n ↔ ∀ part ∈ parts, nest part ≤ n := by
  rw [← Nat.not_lt, lt_deepest_iff]
  simp

mutual

/-- How deep a value nests. -/
def NbtValue.nest : NbtValue → Nat
  | .list list => list.nest
  | .compound compound => compound.nest
  | .string _ | .number _ | .resource _ | .boolean _ | .interpolated _ | .error _ => 0

/-- How deep the elements of a list nest. -/
def NbtItems.nest : NbtItems → Nat
  | .pairs pairs => NbtPair.allNest pairs
  | .values values => NbtValue.allNest values

/-- How deep a list nests, itself included. -/
def NbtList.nest : NbtList → Nat
  | ⟨items, _⟩ => items.nest + 1

/-- How deep a compound nests, itself included. -/
def NbtCompound.nest : NbtCompound → Nat
  | ⟨pairs, _⟩ => NbtPair.allNest pairs + 1

/-- How deep the value of a pair nests. -/
def NbtPair.nest : NbtPair → Nat
  | ⟨_, _, value, _⟩ => value.nest

/-- How deep several pairs nest. -/
def NbtPair.allNest : List NbtPair → Nat
  | [] => 0
  | pair :: pairs => max pair.nest (NbtPair.allNest pairs)

/-- How deep several values nest. -/
def NbtValue.allNest : List NbtValue → Nat
  | [] => 0
  | value :: values => max value.nest (NbtValue.allNest values)

end

/-- Pairs nest as deep as the deepest of them. -/
theorem NbtPair.allNest_eq_deepest (pairs : List NbtPair) :
    NbtPair.allNest pairs = deepest NbtPair.nest pairs := by
  induction pairs with
  | nil => rfl
  | cons pair pairs ih =>
      rw [NbtPair.allNest, ih]
      rfl

/-- Values nest as deep as the deepest of them. -/
theorem NbtValue.allNest_eq_deepest (values : List NbtValue) :
    NbtValue.allNest values = deepest NbtValue.nest values := by
  induction values with
  | nil => rfl
  | cons value values ih =>
      rw [NbtValue.allNest, ih]
      rfl

/-- A list counts itself. -/
theorem NbtList.nest_pos (list : NbtList) : 0 < list.nest := by
  obtain ⟨items, span⟩ := list
  exact Nat.succ_pos _

/-- A compound counts itself. -/
theorem NbtCompound.nest_pos (compound : NbtCompound) : 0 < compound.nest := by
  obtain ⟨pairs, span⟩ := compound
  exact Nat.succ_pos _

/-- How deep a path suffix nests. -/
def PathSuffix.nest : PathSuffix → Nat
  | .index list => list.nest
  | .filter compound => compound.nest

/-- How deep a path segment nests. -/
def PathSegment.nest (segment : PathSegment) : Nat :=
  deepest PathSuffix.nest segment.suffixes

/-- How deep a path nests. -/
def NbtPath.nest (path : NbtPath) : Nat :=
  deepest PathSegment.nest path.segments

/-- How deep the filter of a selector nests. -/
def Selector.nest (selector : Selector) : Nat :=
  (selector.filter.map NbtList.nest).getD 0

mutual

/-- How deep an argument nests. -/
def Argument.nest : Argument → Nat
  | .selector selector => selector.nest
  | .list list => list.nest
  | .compound compound => compound.nest
  | .path path => path.nest
  | .run clause => clause.nest
  | .coordinates _ | .string _ | .number _ | .resource _ | .boolean _ | .fakePlayer _
  | .keyword _ | .interpolated _ | .error _ => 0

/-- How deep a run clause nests, itself included. -/
def RunClause.nest : RunClause → Nat
  | ⟨subcommand, _⟩ => subcommand.nest + 1

/-- How deep the command of a run clause nests. -/
def Subcommand.nest : Subcommand → Nat
  | .command plain => plain.nest
  | .macroCommand line => line.nest

/-- How deep a command nests. -/
def Command.nest : Command → Nat
  | ⟨_, arguments, _⟩ => Argument.allNest arguments

/-- How deep a macro command nests. -/
def MacroCommand.nest : MacroCommand → Nat
  | ⟨_, arguments, _⟩ => Argument.allNest arguments

/-- How deep several arguments nest. -/
def Argument.allNest : List Argument → Nat
  | [] => 0
  | argument :: arguments => max argument.nest (Argument.allNest arguments)

end

/-- The deepest of several arguments is the first or one of the others. -/
theorem Argument.lt_allNest_cons_iff {argument : Argument} {arguments : List Argument} {n : Nat} :
    n < Argument.allNest (argument :: arguments) ↔
      n < argument.nest ∨ n < Argument.allNest arguments := by
  rw [Argument.allNest]
  omega

/-- A run clause counts itself. -/
theorem RunClause.nest_pos (clause : RunClause) : 0 < clause.nest := by
  obtain ⟨subcommand, span⟩ := clause
  exact Nat.succ_pos _

/-- How deep a statement nests. -/
def Statement.nest : Statement → Nat
  | .command plain => plain.nest
  | .macroCommand line => line.nest
  | .comment _ | .error _ => 0

/-- How deep a document nests. -/
def Document.nest (document : Document) : Nat :=
  deepest Statement.nest document.statements

end Mcfunction
