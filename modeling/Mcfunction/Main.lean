import Mcfunction.CommandLine.Program

/-!
# Entry Point

Runs the program on the arguments, files and streams of the process.
-/

namespace Mcfunction.CommandLine

/-- Why reading a source failed. -/
def fileErrorOf (error : IO.Error) : FileError :=
  match error with
  | .noFileOrDirectory .. => .notFound
  | .inappropriateType _ 21 _ => .directory
  | error => .other error.toString

/-- Reads the text of a source. -/
def readSource (source : Source) : IO (Except FileError String) := do
  try
    let bytes ←
      match source with
      | .standardInput => (← IO.getStdin).readBinToEnd
      | .file name => IO.FS.readBinFile name
    match String.fromUTF8? bytes with
    | some text => return .ok text
    | none => return .error .notText
  catch error => return .error (fileErrorOf error)

end Mcfunction.CommandLine

/-- Runs the program and answers with its exit code. -/
def main (arguments : List String) : IO UInt32 := do
  let stdout ← IO.getStdout
  let usual := Mcfunction.CommandLine.Surroundings.usual Mcfunction.CommandLine.readSource
  let output ← Mcfunction.CommandLine.runIn { usual with isTerminal := ← stdout.isTty } arguments
  stdout.putStr output.stdout
  for line in output.stderr do
    (← IO.getStderr).putStrLn line
  return output.exitCode.toUInt32
