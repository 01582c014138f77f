import Composables.FileSystem.Resolve

/-
  Reading and changing files. What was changed before a failure stays changed.
-/

namespace Composables.FileSystem

open Composables.Path (Component)

/-- The text of a file. -/
def readText (fs : FileSystem) (p : Path) : Except Fault String := do
  match ← fs.find p with
  | (_, .file (.text s)) => return s
  | (_, .file (.bytes _)) => throw .notText
  | (_, .directory) => throw .isDirectory

/-- The files below a directory in the order of a walk, each with the path to it by way of the given one. -/
def filesBelow (fs : FileSystem) (p : Path) : List Path :=
  match fs.find p with
  | .ok (k, .directory) => (fs.entries.below k).filterMap fun e =>
    match e.2 with
    | .file _ => some (e.1.foldl (fun p n => p.join ⟨n⟩) p)
    | .directory => none
  | _ => []

/-- Makes one directory. -/
def makeDirectory (p : Path) : EStateM Fault FileSystem Unit := fun fs =>
  match fs.target p with
  | .error e => .error e fs
  | .ok t =>
    match Component.ofSegment? t.last with
    | some (.name n) =>
      match fs.node? (t.directory ++ [n]) with
      | none => .ok () (fs.insert (t.directory ++ [n]) .directory)
      | some _ => .error .alreadyExists fs
    | _ => .error .alreadyExists fs

/-- Makes the first of a list of directories, each of which lies in the next, and before it those of the next ones
that are missing. -/
def makeAll : List Path → EStateM Fault FileSystem Unit
  | [] => throw .notFound
  | p :: above => fun fs =>
    if p.text.isEmpty then .ok () fs
    else
      match makeDirectory p fs with
      | .ok () fs => .ok () fs
      | .error .notFound fs =>
        match makeAll above fs with
        | .error e fs => .error e fs
        | .ok () fs =>
          match makeDirectory p fs with
          | .ok () fs => .ok () fs
          | .error e fs => if fs.isDirectory p then .ok () fs else .error e fs
      | .error e fs => if fs.isDirectory p then .ok () fs else .error e fs

/-- Makes a directory and those it lies in. -/
def makeDirectories (p : Path) : EStateM Fault FileSystem Unit := makeAll p.ancestors

/-- Writes a file; its directory has to be there. -/
def write (p : Path) (contents : Contents) : EStateM Fault FileSystem Unit := fun fs =>
  match fs.target p with
  | .error e => .error e fs
  | .ok t =>
    match Component.ofSegment? t.last, t.slash with
    | some (.name n), false =>
      match fs.node? (t.directory ++ [n]) with
      | some .directory => .error .isDirectory fs
      | _ => .ok () (fs.insert (t.directory ++ [n]) (.file contents))
    | _, _ => .error .isDirectory fs

/-- Writes a file, and makes its directory before if it is missing. -/
def writeWithParents (p : Path) (contents : Contents) : EStateM Fault FileSystem Unit := do
  if let some parent := p.parent? then makeDirectories parent
  write p contents

/-- Takes away a file, or a directory with all that is in it. -/
def remove (p : Path) : EStateM Fault FileSystem Unit := fun fs =>
  match fs.find p with
  | .error e => .error e fs
  | .ok (k, _) => .ok () { fs with entries := fs.entries.erase k }

end Composables.FileSystem
