import Composables.CommandLine.Footprint
import Composables.CommandLine.Run

/-
  The program: takes what a command looks at from the disk, runs the command on it, and puts the changes back.
-/

namespace Composables

open FileSystem

/-- Takes what is at a place. -/
def takeNode (k : Place) (fs : FileSystem) : IO FileSystem := do
  let file := System.mkFilePath ("" :: k)
  if k.isEmpty then return fs
  if ← file.isDir then return fs.insert k .directory
  if ← file.pathExists then return fs.insert k (.file (.ofBytes (← IO.FS.readBinFile file)))
  return fs

/-- Takes all that is in a directory. -/
partial def takeBelow (k : Place) (fs : FileSystem) : IO FileSystem := do
  let file := System.mkFilePath ("" :: k)
  unless ← file.isDir do return fs
  (← file.readDir).foldlM (fun fs e => do takeBelow (k ++ [e.fileName]) (← takeNode (k ++ [e.fileName]) fs)) fs

/-- Takes the nodes on the way of a path; answers where it leads, too. -/
def takeWay (start : Place) (p : Path) (fs : FileSystem) : IO (Place × FileSystem) :=
  p.segments.foldlM (fun (k, fs) s => do return (step k s, ← takeNode (step k s) fs)) (start, fs)

/-- Takes what a path leads to, with all in it. -/
def takePath (fs : FileSystem) (p : Path) : IO FileSystem := do
  let (k, fs) ← takeWay (fs.start p) p fs
  takeBelow k fs

/-- Takes what a command looks at, until nothing more comes to light. -/
partial def takeAll (command : CommandLine.Command) (taken : List Path) (fs : FileSystem) : IO FileSystem := do
  match (command.footprint fs).filter fun p => !taken.contains p with
  | [] => return fs
  | ps => takeAll command (taken ++ ps) (← ps.foldlM takePath fs)

/-- The directory that the program runs in. -/
def takeCurrent : IO FileSystem := do
  let (k, fs) ← takeWay [] ⟨(← IO.currentDir).toString⟩ ⟨[], []⟩
  return { fs with current := k }

/-- Puts back what has changed; a directory stands in front of what is in it. -/
def putBack (old new : FileSystem) : IO Unit := do
  for (k, node) in new.entries do
    if old.node? k ≠ some node then
      let file := System.mkFilePath ("" :: k)
      match node with
      | .directory => IO.FS.createDir file
      | .file (.text s) => IO.FS.writeFile file s
      | .file (.bytes bs) => IO.FS.writeBinFile file ⟨bs.toArray⟩

/-- Runs the program; answers its exit status. -/
def program (arguments : List String) : IO UInt32 := do
  let began ← IO.monoMsNow
  let start ← takeCurrent
  let files ← match CommandLine.parse arguments with
    | some (.run command) => takeAll command [] start
    | _ => pure start
  let (outcome, changed) := CommandLine.run arguments files
  putBack files changed
  for line in outcome.lines (toString ((← IO.monoMsNow) - began)) do IO.println line
  if let .error failure := outcome then IO.eprintln failure.message
  return outcome.status.toUInt32

end Composables

def main (arguments : List String) : IO UInt32 := Composables.program arguments
