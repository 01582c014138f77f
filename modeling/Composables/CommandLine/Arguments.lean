import Composables.Path.Basic

/-
  The arguments of the command line: a command with its flags. Flags may be written together behind one dash,
  and none may be given twice at one level.
-/

namespace Composables.CommandLine

inductive Command where
  /-- Writes a first project file into a directory. -/
  | init (directory : Path)
  | generate (config : Path)
  | check (config : Path)
deriving DecidableEq, Repr

inductive Request where
  | version
  | run (command : Command)
deriving DecidableEq, Repr

def projectFile : String := "codegen.json"

/-- What has been read at one level. -/
structure Given where
  verbose : Bool
  config? : Option String
  directory? : Option String
deriving DecidableEq, Repr

namespace Given

def none : Given := ⟨false, .none, .none⟩

def setVerbose (g : Given) : Option Given := if g.verbose then .none else some { g with verbose := true }

/-- The project file may be given once, and not as an empty text. -/
def setConfig (g : Given) (value : String) : Option Given :=
  if g.config?.isSome || value.isEmpty then .none else some { g with config? := some value }

def setDirectory (g : Given) (value : String) : Option Given :=
  if g.directory?.isSome || value.isEmpty then .none else some { g with directory? := some value }

end Given

/-- What a command takes besides the flags that all of them take. -/
inductive Takes where
  | config
  | directory
deriving DecidableEq, Repr

/-- Whether an argument can be the value of a flag, or stand for itself. -/
def isValue (a : String) : Bool := a == "-" || a.toList.head? != some '-'

/-- An argument that stands for itself. -/
def positional (takes : Takes) (g : Given) (a : String) : Option Given :=
  if takes = .directory then g.setDirectory a else none

/-- Flags behind one dash. The rest of the argument, or else the next one, is the value of the flag for the
project file; answers what is read and the arguments left. -/
def cluster (takes : Takes) (g : Given) (next : List String) : List Char → Option (Given × List String)
  | [] => some (g, next)
  | 'v' :: cs => do cluster takes (← g.setVerbose) next cs
  | 'c' :: cs =>
    if takes = .config then
      match cs, next with
      | '=' :: value, next => (g.setConfig (String.ofList value)).map (·, next)
      | c :: value, next => (g.setConfig (String.ofList (c :: value))).map (·, next)
      | [], a :: next => if isValue a then (g.setConfig a).map (·, next) else none
      | [], [] => none
    else none
  | _ => none

/-- A flag written out, without its two dashes. -/
def long (takes : Takes) (g : Given) (next : List String) (flag : List Char) : Option (Given × List String) :=
  match flag.span (· ≠ '='), next with
  | (name, []), next =>
    match String.ofList name, next with
    | "verbose", next => g.setVerbose.map (·, next)
    | "config", a :: next =>
      if takes = .config && isValue a then (g.setConfig a).map (·, next) else none
    | _, _ => none
  | (name, _ :: value), next =>
    if takes = .config && String.ofList name = "config" then (g.setConfig (String.ofList value)).map (·, next)
    else none

/-- Reads the arguments of a command. Behind `--` there are no flags. `room` bounds the number of steps. -/
def readLevel (takes : Takes) : Nat → Given → List String → Option Given
  | 0, _, _ => none
  | _ + 1, g, [] => some g
  | room + 1, g, a :: next =>
    match a.toList with
    | ['-', '-'] => next.foldlM (positional takes) g
    | '-' :: '-' :: flag => do
      let (g, next) ← long takes g next flag
      readLevel takes room g next
    | '-' :: c :: flags => do
      let (g, next) ← cluster takes g next (c :: flags)
      readLevel takes room g next
    | _ => do readLevel takes room (← positional takes g a) next

/-- The command with a name and its arguments. -/
def readCommand (name : String) (arguments : List String) : Option Command :=
  let read (takes : Takes) : Option Given := readLevel takes (arguments.length + 1) Given.none arguments
  let config (g : Given) : Path := ⟨g.config?.getD projectFile⟩
  match name with
  | "init" => (read .directory).map fun g => .init ⟨g.directory?.getD "."⟩
  | "generate" => (read .config).map fun g => .generate (config g)
  | "check" => (read .config).map fun g => .check (config g)
  | _ => none

/-- Flags in front of the command; `none` for the version. -/
def leadingFlags : Given → List Char → Option (Option Given)
  | g, [] => some (some g)
  | _, 'V' :: _ => some none
  | g, 'v' :: cs => do leadingFlags (← g.setVerbose) cs
  | _, _ => none

/-- Reads the arguments of the program. -/
def read (g : Given) : List String → Option Request
  | [] => none
  | a :: next =>
    match a.toList with
    | ['-', '-', 'v', 'e', 'r', 'b', 'o', 's', 'e'] => do read (← g.setVerbose) next
    | ['-', '-', 'v', 'e', 'r', 's', 'i', 'o', 'n'] => some .version
    | '-' :: '-' :: _ => none
    | '-' :: c :: flags => do
      match ← leadingFlags g (c :: flags) with
      | some g => read g next
      | none => some .version
    | _ => (readCommand a next).map .run

/-- The request that arguments make; without one they are not understood. -/
def parse (arguments : List String) : Option Request := read Given.none arguments

end Composables.CommandLine
