import Mcfunction.Scan.Basic

/-!
# Trivia and Statement Ends

Blanks and line continuations are trivia: they separate tokens and mean nothing. A line
continuation is a backslash, optional spaces and tabs and a line break; it joins two lines
into one statement.
-/

namespace Mcfunction.Scan

/-- The line continuation at the front, if there is one. -/
def continuation : List Char → Option Nat
  | '\\' :: chars =>
    let blanks := run (fun c => c == ' ' || c == '\t') chars
    match chars.drop blanks with
    | '\n' :: _ => some (blanks + 2)
    | '\r' :: '\n' :: _ => some (blanks + 3)
    | _ => none
  | _ => none

/-- One blank or one continuation. -/
def triviaStep (chars : List Char) : Nat :=
  match chars with
  | [] => 0
  | c :: _ => if isBlank c then 1 else (continuation chars).getD 0

/-- The blanks and continuations at the front. -/
def trivia (chars : List Char) : Nat :=
  repeated triviaStep 0 chars

/-- Whether a line break or the end of the text follows. -/
def atLineEnd (chars : List Char) : Bool :=
  match chars with
  | [] => true
  | c :: _ => c == '\n'

/-- Whether nothing but trivia separates this place from the end of the statement. -/
def atStatementEnd (chars : List Char) : Bool :=
  atLineEnd (chars.drop (trivia chars))

/-- One continuation, or one character that does not end the line. -/
def statementStep (chars : List Char) : Nat :=
  match chars with
  | [] => 0
  | c :: _ => if c == '\n' then 0 else (continuation chars).getD 1

/-- What is left of the statement: the text up to the line break or the end of the text that
ends it. -/
def statement (chars : List Char) : Nat :=
  repeated statementStep 0 chars

/-- The text without its trailing blanks. -/
def trimEnd (chars : List Char) : List Char :=
  (chars.reverse.dropWhile isBlank).reverse

end Mcfunction.Scan
