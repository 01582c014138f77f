import Composables.FileSystem.Basic
import Composables.FileSystem.Fault

/-
  Following paths through a file system. Every segment but the last has to lead through a directory, `..`
  included, and a slash at the end asks for one.
-/

namespace Composables.FileSystem

open Composables.Path (Segment Component)

/-- The place a segment leads to. -/
def step (k : Place) (s : Segment) : Place :=
  match Component.ofSegment? s with
  | some .up => k.dropLast
  | some (.name n) => k ++ [n]
  | _ => k

/-- Follows a segment from a place, which has to be a directory. -/
def enter (fs : FileSystem) (k : Place) (s : Segment) : Except Fault Place :=
  match fs.node? k with
  | some .directory => .ok (step k s)
  | some (.file _) => .error .notDirectory
  | none => .error .notFound

/-- Where a path begins. -/
def start (fs : FileSystem) (p : Path) : Place := if p.isAbsolute then [] else fs.current

/-- The place a path leads to; nothing needs to be there. -/
def resolve (fs : FileSystem) (p : Path) : Except Fault Place :=
  if p.text.isEmpty then .error .notFound else p.segments.foldlM fs.enter (fs.start p)

/-- What a path leads to. -/
def find (fs : FileSystem) (p : Path) : Except Fault (Place × Node) := do
  let k ← fs.resolve p
  match fs.node? k with
  | some n => return (k, n)
  | none => throw .notFound

def isFile (fs : FileSystem) (p : Path) : Bool :=
  match fs.find p with
  | .ok (_, .file _) => true
  | _ => false

def isDirectory (fs : FileSystem) (p : Path) : Bool :=
  match fs.find p with
  | .ok (_, .directory) => true
  | _ => false

def exists? (fs : FileSystem) (p : Path) : Bool := (fs.find p).isOk

/-- The absolute path of a place, without detours. -/
def pathTo (k : Place) : Path := ⟨"/" ++ "/".intercalate k⟩

/-- The absolute path of what a path leads to. -/
def canonical (fs : FileSystem) (p : Path) : Except Fault Path := do
  let (k, _) ← fs.find p
  return pathTo k

/-- Where a path would make something: the directory, and the last segment with a note whether a slash follows. -/
structure Target where
  directory : Place
  last : Segment
  slash : Bool
deriving DecidableEq, Repr

/-- The directory in front of a path's last segment. -/
def target (fs : FileSystem) (p : Path) : Except Fault Target :=
  match p.segments.reverse.dropWhile List.isEmpty with
  | [] => if p.text.isEmpty then .error .notFound else .ok ⟨[], ['.'], true⟩
  | last :: front => do
    let k ← front.reverse.foldlM fs.enter (fs.start p)
    let directory ← fs.enter k ['.']
    return ⟨directory, last, p.segments.getLast?.any List.isEmpty⟩

end Composables.FileSystem
