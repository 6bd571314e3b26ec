/-!
# File Errors

Why the text of a file, or of standard input, cannot be read.
-/

namespace Mcfunction

/-- Why a text cannot be read. -/
inductive FileError where
  /-- There is no such file. -/
  | notFound
  /-- The name is that of a directory. -/
  | directory
  /-- The bytes are no text in UTF-8. -/
  | notText
  /-- Anything else that the operating system reports. -/
  | other (report : String)
deriving DecidableEq

/-- The reason in words. -/
def FileError.message : FileError → String
  | .notFound => "No such file or directory (os error 2)"
  | .directory => "Is a directory (os error 21)"
  | .notText => "stream did not contain valid UTF-8"
  | .other report => report

end Mcfunction
