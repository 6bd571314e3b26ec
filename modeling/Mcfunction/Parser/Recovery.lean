import Mcfunction.Parser.Basic

/-!
# Recovery

How a tolerant parse goes on after an error. The malformed text is skipped as one chunk that
ends at whitespace outside brackets, at the bracket that closes the chunk, or with the
statement; a placeholder takes its place. A statement that cannot be saved is skipped whole.

The chunks in which errors are reported are found here too.
-/

namespace Mcfunction

namespace Scan

/-- Characters of a chunk: all but blanks and line breaks. -/
def isChunkChar (c : Char) : Bool :=
  !isBlank c && c != '\n'

/-- The text up to the next blank or line break, and at least one character if there is
one. -/
def chunk (chars : List Char) : Nat :=
  max (run isChunkChar chars) (min 1 chars.length)

/-- Whether the chunk at the front looks like a coordinate part. -/
def startsCoordinateLike (chars : List Char) : Bool :=
  match chars with
  | [] => false
  | c :: _ => c == '~' || c == '^' || coordinate chars == some (chunk chars)

/-- Blanks and a chunk after them that looks like a coordinate part. -/
def coordinateStep (chars : List Char) : Nat :=
  let gap := run isBlank chars
  let next := chars.drop gap
  if gap = 0 || !startsCoordinateLike next then 0 else gap + chunk next

/-- A chunk and the chunks after it that look like coordinate parts, so that a broken triple
is reported as one. -/
def coordinateRun (chars : List Char) : Nat :=
  chunk chars + repeated coordinateStep 0 (chars.drop (chunk chars))

/-- The rest of the statement without the blanks at its end. -/
def trimmedStatement (chars : List Char) : Nat :=
  (trimEnd (chars.take (statement chars))).length

/-- The malformed chunk at the front, with respect to brackets, quotes and continuations.
`closers` are the closing brackets still wanted, innermost first. Outside brackets the chunk
ends at whitespace; a closing bracket that is not wanted ends it before itself, the last one
wanted after itself. A broken string takes the rest of the statement with it. The first
`pending` characters belong to a string or a continuation already recognized. -/
def balancedChunk (closers : List Char) : Nat → List Char → Nat
  | _, [] => 0
  | pending + 1, _ :: chars => balancedChunk closers pending chars + 1
  | 0, c :: chars =>
    if c == '\n' then 0
    else
      match continuation (c :: chars) with
      | some count =>
        if closers.isEmpty then 0 else balancedChunk closers (count - 1) chars + 1
      | none =>
        if isBlank c && closers.isEmpty then 0
        else if c == '"' || c == '\'' then
          match quoted (c :: chars) with
          | .ok quoted => balancedChunk closers quoted.before chars + 1
          | .error _ => max (trimmedStatement (c :: chars)) 1
        else if c == '[' then balancedChunk (']' :: closers) 0 chars + 1
        else if c == '{' then balancedChunk ('}' :: closers) 0 chars + 1
        else if c == ']' || c == '}' then
          match closers with
          | [] => 0
          | closer :: outer =>
            if closer != c then 0
            else if outer.isEmpty then 1
            else balancedChunk outer 0 chars + 1
        else balancedChunk closers 0 chars + 1

end Scan

namespace Parser

/-- The end of the text that a placeholder at `start` covers: the malformed chunk, extended to
the end of the error as far as the statement goes, and at least one character. -/
def skipEnd (start : Cursor) (error : ParseError) : Nat :=
  let limit := start.offsetAfter (Scan.statement start.rest)
  let chunkEnd := start.offsetAfter (Scan.balancedChunk [] 0 start.rest)
  let stop := max chunkEnd (min error.span.stop limit)
  if stop ≤ start.offset then start.charEnd else stop

/-- Reports an error and skips the malformed text at the cursor. -/
def recover (error : ParseError) : Parser ErrorNode := do
  let start ← here
  let stop := skipEnd start error
  let skipped ← span start.offset stop
  log (.recovered error skipped)
  goTo stop
  return ⟨error.message, skipped⟩

/-- A parser whose errors, in tolerant mode, become placeholders. -/
def orPlaceholder {α : Type} (parser : Parser α) (placeholder : ErrorNode → α) : Parser α :=
  orElse parser fun error => do
    match (← settings).mode with
    | .strict => fail error
    | .tolerant => return placeholder (← recover error)

/-- Reports an error and skips the rest of the statement at the cursor. -/
def recoverStatement (error : ParseError) : Parser Statement := do
  let start ← here
  let count := Scan.statement start.rest
  log (.skippedStatement error ⟨start.offset, start.offsetAfter count⟩)
  take count
  let trimmed ← span start.offset (start.offsetAfter (Scan.trimmedStatement start.rest))
  return .error ⟨error.message, trimmed⟩

/-- Fails because the character at the cursor is not what was wanted. A line break counts as
the end of the statement, and the error does not reach over it. -/
def unexpected {α : Type} (wanted : Wanted) : Parser α := do
  let start ← here
  let statementEnd := start.offsetAfter (Scan.statement start.rest)
  let found :=
    match ← slice start start.offset start.charEnd with
    | ['\n'] => none
    | chars => chars.head?
  failAt (.unexpectedToken wanted found) start.offset
    (max (min start.charEnd statementEnd) start.offset)

/-- Fails because a container or run clause that starts at a place nests too deep. -/
def tooDeep {α : Type} (start : Cursor) : Parser α := do
  failAt (.nestingTooDeep (← settings).limit) start.offset start.charEnd

end Parser

end Mcfunction
