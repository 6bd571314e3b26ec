import Mcfunction.Tree.Basic

/-!
# Error Placeholders

Whether a tree holds a placeholder of something that could not be parsed. A statement, an
argument and a container in value position are the places where one can stand.
-/

namespace Mcfunction

mutual

/-- Whether a value is or holds a placeholder. -/
def NbtValue.hasErrors : NbtValue → Bool
  | .error _ => true
  | .list list => list.hasErrors
  | .compound compound => compound.hasErrors
  | .string _ | .number _ | .resource _ | .boolean _ | .interpolated _ => false

/-- Whether an element of a list holds a placeholder. -/
def NbtItems.hasErrors : NbtItems → Bool
  | .pairs pairs => NbtPair.anyErrors pairs
  | .values values => NbtValue.anyErrors values

/-- Whether a list holds a placeholder. -/
def NbtList.hasErrors : NbtList → Bool
  | ⟨items, _⟩ => items.hasErrors

/-- Whether a compound holds a placeholder. -/
def NbtCompound.hasErrors : NbtCompound → Bool
  | ⟨pairs, _⟩ => NbtPair.anyErrors pairs

/-- Whether the value of a pair is or holds a placeholder. -/
def NbtPair.hasErrors : NbtPair → Bool
  | ⟨_, _, value, _⟩ => value.hasErrors

/-- Whether one of several pairs holds a placeholder. -/
def NbtPair.anyErrors : List NbtPair → Bool
  | [] => false
  | pair :: pairs => pair.hasErrors || NbtPair.anyErrors pairs

/-- Whether one of several values is or holds a placeholder. -/
def NbtValue.anyErrors : List NbtValue → Bool
  | [] => false
  | value :: values => value.hasErrors || NbtValue.anyErrors values

end

/-- Whether a path suffix holds a placeholder. -/
def PathSuffix.hasErrors : PathSuffix → Bool
  | .index list => list.hasErrors
  | .filter compound => compound.hasErrors

/-- Whether a path holds a placeholder. -/
def NbtPath.hasErrors (path : NbtPath) : Bool :=
  path.segments.any fun segment => segment.suffixes.any PathSuffix.hasErrors

mutual

/-- Whether an argument is or holds a placeholder. -/
def Argument.hasErrors : Argument → Bool
  | .error _ => true
  | .selector selector => selector.filter.any NbtList.hasErrors
  | .list list => list.hasErrors
  | .compound compound => compound.hasErrors
  | .path path => path.hasErrors
  | .run clause => clause.hasErrors
  | .coordinates _ | .string _ | .number _ | .resource _ | .boolean _ | .fakePlayer _
  | .keyword _ | .interpolated _ => false

/-- Whether the command of a run clause holds a placeholder. -/
def RunClause.hasErrors : RunClause → Bool
  | ⟨subcommand, _⟩ => subcommand.hasErrors

/-- Whether a subcommand holds a placeholder. -/
def Subcommand.hasErrors : Subcommand → Bool
  | .command plain => plain.hasErrors
  | .macroCommand line => line.hasErrors

/-- Whether an argument of a command is or holds a placeholder. -/
def Command.hasErrors : Command → Bool
  | ⟨_, arguments, _⟩ => Argument.anyErrors arguments

/-- Whether an argument of a macro command is or holds a placeholder. -/
def MacroCommand.hasErrors : MacroCommand → Bool
  | ⟨_, arguments, _⟩ => Argument.anyErrors arguments

/-- Whether one of several arguments is or holds a placeholder. -/
def Argument.anyErrors : List Argument → Bool
  | [] => false
  | argument :: arguments => argument.hasErrors || Argument.anyErrors arguments

end

/-- Whether a statement is or holds a placeholder. -/
def Statement.hasErrors : Statement → Bool
  | .command plain => plain.hasErrors
  | .macroCommand line => line.hasErrors
  | .comment _ => false
  | .error _ => true

/-- Whether a document holds a placeholder. -/
def Document.hasErrors (document : Document) : Bool :=
  document.statements.any Statement.hasErrors

end Mcfunction
