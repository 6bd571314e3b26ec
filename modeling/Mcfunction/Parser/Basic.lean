import Mcfunction.Diagnostic.ParseError
import Mcfunction.Tree.Basic

/-!
# Parsers

A parser reads a tree at a cursor. It either succeeds and moves the cursor, or fails with a
`ParseError`; on the way it logs events, which a failure keeps. The log of a parser holds only
what the parser itself logged: sequencing appends logs, so no parser can see or change what
came before it.

Two settings hold for a whole parse: the limit on nesting, and the mode. In strict mode the
first error ends the parse. In tolerant mode `Parser.recoverWith` catches errors at certain
places and puts a placeholder there.
-/

namespace Mcfunction

/-- What a parse does with an error. -/
inductive Mode where
  /-- The first error ends the parse. -/
  | strict
  /-- Errors become diagnostics and placeholders. -/
  | tolerant
deriving DecidableEq

/-- What holds for a whole parse. -/
structure Settings where
  /-- How deep containers and run clauses may nest. -/
  limit : Nat
  /-- What to do with an error. -/
  mode : Mode
deriving DecidableEq

/-- The kinds of statement. -/
inductive StatementKind where
  /-- A plain command. -/
  | command
  /-- A `$` line. -/
  | macroCommand
  /-- A `#` line. -/
  | comment
  /-- A line that could not be parsed. -/
  | error
deriving DecidableEq

/-- What happens during a parse. -/
inductive Event where
  /-- The parse of a text of so many bytes began. -/
  | started (bytes : Nat) (mode : Mode)
  /-- A placeholder was put in the place of an argument or a container. -/
  | recovered (error : ParseError) (skipped : Span)
  /-- A placeholder was put in the place of the rest of a statement. -/
  | skippedStatement (error : ParseError) (skipped : Span)
  /-- A macro line turned out to have no interpolation. -/
  | neverInterpolated (statement : Span)
  /-- A statement was read. -/
  | statement (span : Span) (kind : StatementKind)
  /-- The parse reached the end of the text, with so many statements and diagnostics. -/
  | finished (statements diagnostics : Nat)
deriving DecidableEq

/-- What comes of running a parser. -/
inductive Outcome (α : Type) where
  /-- It succeeded, logged events and stopped at a cursor. -/
  | done (value : α) (log : List Event) (next : Cursor)
  /-- It failed after logging events. -/
  | failed (error : ParseError) (log : List Event)
  /-- The program broke a promise. -/
  | broken (fault : Fault)

namespace Outcome

/-- The outcome after events that came before it. -/
def after {α : Type} (earlier : List Event) : Outcome α → Outcome α
  | .done value log next => .done value (earlier ++ log) next
  | .failed error log => .failed error (earlier ++ log)
  | .broken fault => .broken fault

/-- The outcome of going on with `next` after a success. -/
def andThen {α β : Type} (outcome : Outcome α) (next : α → Cursor → Outcome β) : Outcome β :=
  match outcome with
  | .done value log cursor => (next value cursor).after log
  | .failed error log => .failed error log
  | .broken fault => .broken fault

end Outcome

/-- A reader of trees of type `α`. -/
def Parser (α : Type) : Type :=
  Settings → Cursor → Outcome α

namespace Parser

/-- Reads nothing. -/
def pure {α : Type} (value : α) : Parser α :=
  fun _ cursor => .done value [] cursor

/-- One parser after another. -/
def bind {α β : Type} (first : Parser α) (next : α → Parser β) : Parser β :=
  fun settings cursor =>
    (first settings cursor).andThen fun value cursor => next value settings cursor

instance : Monad Parser where
  pure := Parser.pure
  bind := Parser.bind

/-- Fails with an error. -/
def fail {α : Type} (error : ParseError) : Parser α :=
  fun _ _ => .failed error []

/-- Stops because a promise is broken. -/
def breakOff {α : Type} (fault : Fault) : Parser α :=
  fun _ _ => .broken fault

/-- The settings of the parse. -/
def settings : Parser Settings :=
  fun settings cursor => .done settings [] cursor

/-- The place that the parser has reached. -/
def here : Parser Cursor :=
  fun _ cursor => .done cursor [] cursor

/-- Goes to a place. -/
def moveTo (target : Cursor) : Parser Unit :=
  fun _ _ => .done () [] target

/-- Logs an event. -/
def log (event : Event) : Parser Unit :=
  fun _ cursor => .done () [event] cursor

/-- Runs a parser, and on failure another one from the same place. -/
def orElse {α : Type} (parser : Parser α) (handler : ParseError → Parser α) : Parser α :=
  fun settings cursor =>
    match parser settings cursor with
    | .failed error log => (handler error settings cursor).after log
    | outcome => outcome

/-- A value that can be refused because a promise is broken. -/
def trust {α : Type} : Except Fault α → Parser α
  | .ok value => pure value
  | .error fault => breakOff fault

/-- The span between two offsets. -/
def span (start stop : Nat) : Parser Span :=
  trust (Span.between start stop)

/-- The characters between two offsets, of which the first does not lie before `place`. -/
def slice (place : Cursor) (start stop : Nat) : Parser (List Char) :=
  match place.slice? start stop with
  | some chars => pure chars
  | none => breakOff (.badSlice start stop)

/-- The text between two offsets, of which the first does not lie before `place`. -/
def sliceText (place : Cursor) (start stop : Nat) : Parser String := do
  return String.ofList (← slice place start stop)

/-- The span from an offset up to the place that the parser has reached. -/
def spanFrom (start : Nat) : Parser Span := do
  span start (← here).offset

/-- Fails with a cause at a span. -/
def failAt {α : Type} (cause : Cause) (start stop : Nat) : Parser α := do
  fail ⟨cause, ← span start stop⟩

/-- Moves over `count` characters. There must be so many: no parser leaves the text. -/
def take (count : Nat) : Parser Unit := do
  let start ← here
  match start.advance? count with
  | some next => moveTo next
  | none => breakOff (.badOffset (start.offsetAfter count))

/-- Moves to an offset that does not lie before the cursor. -/
def goTo (offset : Nat) : Parser Unit := do
  match (← here).at? offset with
  | some next => moveTo next
  | none => breakOff (.badOffset offset)

/-- Moves over blanks and continuations. -/
def skipTrivia : Parser Unit := do
  take (Scan.trivia (← here).rest)

/-- What a recognizer found at the cursor, or its error. -/
def scan {α : Type} (recognizer : List Char → Except Scan.Error α) : Parser α := do
  let cursor ← here
  match recognizer cursor.rest with
  | .ok found => pure found
  | .error error => fail (error.at cursor)

end Parser

end Mcfunction
