import Composables.Error
import Composables.FileSystem.Resolve
import Composables.FileSystem.Disk
import Composables.Project.Decode

/-
  Loading a project file. The paths of a loaded project are absolute: they are taken from the directory that the
  file lies in.
-/

namespace Composables.Project

/-- The text of a file that is asked for by a path. -/
def readFile (fs : FileSystem) (p : Path) : Except Error String := (fs.readText p).mapError (.unreadable p)

def load (fs : FileSystem) (p : Path) : Except Error Project := do
  let text ← readFile fs p
  let project ← (decode text).mapError (.invalidProject p)
  let file ← (fs.canonical p).mapError (.unreadable p)
  match file.parent? with
  | some base => return project.rebase base
  | none => return project

end Composables.Project
