import Composables.Json.Printer
import Composables.Options
import Composables.Path.Basic

/-
  A project: where the schema and the documents are, and where the modules go.
-/

namespace Composables

/-- How modules are laid out. -/
inductive Preset where
  /-- One module for all documents. -/
  | singleFile
  /-- One module beside each document. -/
  | nearOperationFile
deriving DecidableEq, Repr, Inhabited

namespace Preset

def name : Preset → String
  | .singleFile => "single-file"
  | .nearOperationFile => "near-operation-file"

def ofName? : String → Option Preset
  | "single-file" => some .singleFile
  | "near-operation-file" => some .nearOperationFile
  | _ => none

theorem ofName?_name (p : Preset) : ofName? p.name = some p := by cases p <;> rfl

end Preset

structure Project where
  schema : Path
  /-- Files, and directories to look for files in. -/
  documents : List Path
  /-- The module of a project with one module. -/
  output : Path
  preset : Preset
  /-- What the names of modules beside documents end in. -/
  extension : String
  config : Json.Members
deriving Repr, Inhabited

namespace Project

def options (p : Project) : Options := .ofMembers p.config

/-- The paths whose changes call for a new generation. -/
def watched (p : Project) : List Path := p.schema :: p.documents

def toJson (p : Project) : Json :=
  .object [("schema", .string p.schema.text), ("documents", .array (p.documents.map fun d => .string d.text)),
    ("output", .string p.output.text), ("preset", .string p.preset.name), ("extension", .string p.extension),
    ("config", .object p.config)]

/-- The project as text. -/
def serialize (p : Project) : String := p.toJson.compact

/-- The project with its relative paths taken from a directory. -/
def rebase (p : Project) (base : Path) : Project :=
  { p with schema := base.join p.schema, documents := p.documents.map base.join, output := base.join p.output }

end Project

end Composables
