/-
  Why a file cannot be read or written.
-/

namespace Composables.FileSystem

inductive Fault where
  | notFound
  | alreadyExists
  | notDirectory
  | isDirectory
  /-- The contents are not text in UTF-8. -/
  | notText
  /-- Nothing stands where documents should be looked for. -/
  | noDocumentRoot
deriving DecidableEq, Repr

def Fault.message : Fault → String
  | .notFound => "No such file or directory (os error 2)"
  | .alreadyExists => "File exists (os error 17)"
  | .notDirectory => "Not a directory (os error 20)"
  | .isDirectory => "Is a directory (os error 21)"
  | .notText => "stream did not contain valid UTF-8"
  | .noDocumentRoot => "no such file or directory"

end Composables.FileSystem
