import Composables.CommandLine.Arguments
import Composables.CommandLine.Display
import Composables.Project.Compile

/-
  Running a command: what comes of it, what it prints, and the files it leaves.
-/

namespace Composables.CommandLine

/-- What a command has done. -/
inductive Result where
  | version
  | created (file : Path)
  | generated (operations fragments : Nat) (links : List Link)
  | valid (operations fragments : Nat)
deriving DecidableEq, Repr

inductive Failure where
  /-- The arguments are not understood. -/
  | usage
  /-- A project file is there already. -/
  | projectExists (file : Path)
  | directoryNotMade (directory : Path) (fault : FileSystem.Fault)
  | projectNotWritten (file : Path) (fault : FileSystem.Fault)
  /-- The project file cannot be loaded. -/
  | project (e : Error)
  /-- The project is loaded, and has a fault. -/
  | generation (e : Error)
deriving DecidableEq, Repr

def Failure.message : Failure → String
  | .usage => "Usage: vue-compose [-v] <init [PATH] | generate [-c CONFIG] | check [-c CONFIG]>"
  | .projectExists file => file.text ++ " already exists"
  | .directoryNotMade directory fault => "Failed to create " ++ directory.text ++ ": " ++ fault.message
  | .projectNotWritten file fault => "Failed to write " ++ file.text ++ ": " ++ fault.message
  | .project e => e.message
  | .generation e => e.message

abbrev Outcome := Except Failure Result

namespace Outcome

/-- The exit status. -/
def status : Outcome → Nat
  | .ok _ => 0
  | .error .usage => 2
  | .error _ => 1

/-- The code of the error that ended the run. -/
def code? : Outcome → Option String
  | .error (.project e) => some e.code
  | .error (.generation e) => some e.code
  | _ => none

/-- The lines that are printed after the given time. -/
def lines (elapsed : String) : Outcome → List String
  | .ok .version => [versionLine]
  | .ok (.created file) => createdLines file
  | .ok (.generated operations fragments links) =>
    generatedLine operations fragments :: links.map Link.line ++ ["", timing elapsed]
  | .ok (.valid operations fragments) => validLines operations fragments
  | .error (.generation _) => failedLines
  | .error _ => []

end Outcome

/-- The first project file. -/
def starter : Json :=
  .object [("schema", .string "schema.graphql"), ("documents", .array [.string "src"]),
    ("output", .string "src/generated/operations.ts"), ("preset", .string "single-file"),
    ("config", .object [("target", .string "vue-apollo"), ("dedupeOperationSuffix", .bool true),
      ("addDocBlocks", .bool true), ("documentMode", .string "graphQLTag")])]

/-- A command; what it changed before a failure stays. -/
abbrev Run := FileSystem → Outcome × FileSystem

def runInit (directory : Path) : Run := fun fs =>
  let file := directory.join ⟨projectFile⟩
  if fs.exists? file then (.error (.projectExists file), fs)
  else
    match FileSystem.makeDirectories directory fs with
    | .error fault fs => (.error (.directoryNotMade directory fault), fs)
    | .ok () fs =>
      match FileSystem.write file (.text (starter.pretty ++ "\n")) fs with
      | .error fault fs => (.error (.projectNotWritten file fault), fs)
      | .ok () fs => (.ok (.created file), fs)

def runGenerate (config : Path) : Run := fun fs =>
  match Project.load fs config with
  | .error e => (.error (.project e), fs)
  | .ok project =>
    match project.compile fs with
    | .error e fs => (.error (.generation e), fs)
    | .ok report fs =>
      (.ok (.generated report.operations report.fragments (report.files.map (Link.to fs))), fs)

def runCheck (config : Path) : Run := fun fs =>
  match Project.load fs config with
  | .error e => (.error (.project e), fs)
  | .ok project =>
    match project.check fs with
    | .error e => (.error (.generation e), fs)
    | .ok report => (.ok (.valid report.operations report.fragments), fs)

def Command.run : Command → Run
  | .init directory => runInit directory
  | .generate config => runGenerate config
  | .check config => runCheck config

/-- Runs the program on its arguments. -/
def run (arguments : List String) : Run := fun fs =>
  match parse arguments with
  | none => (.error .usage, fs)
  | some .version => (.ok .version, fs)
  | some (.run command) => command.run fs

end Composables.CommandLine
