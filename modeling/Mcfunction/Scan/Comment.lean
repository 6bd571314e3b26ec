import Mcfunction.Scan.Trivia

/-!
# Comments

A comment opens with a tag: one or more `#`, then a run of one of the marks `!`, `@` or `>`
if the comment is more than a plain one. Its text is the rest of the statement.
-/

namespace Mcfunction.Scan

/-- The tag of a comment and its mark. -/
def commentTag (chars : List Char) : Nat × Option Char :=
  let hashes := run (· == '#') chars
  match chars.drop hashes with
  | [] => (hashes, none)
  | mark :: tail =>
    if mark == '!' || mark == '@' || mark == '>' then
      (hashes + 1 + run (· == mark) tail, some mark)
    else (hashes, none)

/-- The text of a comment: the rest of the statement without a carriage return at its end. -/
def commentText (chars : List Char) : Nat :=
  let count := statement chars
  if (chars.take count).getLast? == some '\r' then count - 1 else count

end Mcfunction.Scan
