import Composables.Json.Draft
import Composables.Project.Basic
import Composables.Project.Fault

/-
  Reading a project from JSON text: an object of fields, or an array of their values in order. The first fault
  in the order of the text is reported; fields that are missing come last.
-/

namespace Composables.Project

open Json (Draft)

/-! ## Values -/

/-- What a message calls a value; one that cannot be read has no name. -/
def Found.ofDraft? : Draft → Option Found
  | .unreadable => none
  | .null => some .null
  | .bool b => some (.boolean b)
  | .number n =>
    match n.value? with
    | some (.int n) => some (.integer n)
    | some (.float x) => some (.float x)
    | _ => none
  | .string text => text.map Found.string
  | .array .. => some .sequence
  | .object .. => some .map

/-- The fault of a value where something else is expected. -/
def mismatch (d : Draft) (expected : String) : Fault :=
  match Found.ofDraft? d with
  | some found => .invalidType found expected
  | none => .malformed

def readText (expected : String) : Draft → Except Fault String
  | .string (some s) => .ok s
  | d => .error (mismatch d expected)

def readPath (d : Draft) : Except Fault Path := (readText "path string" d).map Path.mk

def readPaths : Draft → Except Fault (List Path)
  | .array items closed => do
    let paths ← items.mapM readPath
    if closed then return paths else throw .malformed
  | d => .error (mismatch d "a sequence")

def presetNamed (name : String) : Except Fault Preset :=
  match Preset.ofName? name with
  | some p => .ok p
  | none => .error (.unknownVariant name)

/-- A preset is its name, or an object with the name as its only key and null behind it. -/
def readPreset : Draft → Except Fault Preset
  | .string (some name) => presetNamed name
  | .object ((some name, item) :: rest) closed => do
    let preset ← presetNamed name
    match item with
    | .null => if rest.isEmpty && closed then return preset else throw .malformed
    | item => throw (mismatch item "unit")
  | _ => .error .malformed

/-- The options stand inside the brackets of the project. -/
def readConfig : Draft → Except Fault Json.Members
  | .object members closed =>
    match (Draft.object members closed).toJson? (Json.depthLimit - 1) with
    | some (.object ms) => .ok ms
    | _ => .error .malformed
  | d => .error (mismatch d "a map")

/-! ## Fields -/

/-- The fields read so far. -/
structure Fields where
  schema? : Option Path
  documents? : Option (List Path)
  output? : Option Path
  preset? : Option Preset
  extension? : Option String
  config? : Option Json.Members
deriving Repr, Inhabited

namespace Fields

def none : Fields := ⟨.none, .none, .none, .none, .none, .none⟩

def standardOutput : Path := ⟨"src/generated/operations.ts"⟩

def standardExtension : String := ".generated.ts"

/-- The project, once the schema and the documents are there. -/
def toProject (fs : Fields) : Except Fault Project :=
  match fs.schema?, fs.documents? with
  | .none, _ => .error (.missingField "schema")
  | _, .none => .error (.missingField "documents")
  | some schema, some documents => .ok {
      schema, documents
      output := fs.output?.getD standardOutput
      preset := fs.preset?.getD .singleFile
      extension := fs.extension?.getD standardExtension
      config := fs.config?.getD [] }

end Fields

inductive Field where
  | schema
  | documents
  | output
  | preset
  | extension
  | config
deriving DecidableEq, Repr

namespace Field

/-- The fields in their order. -/
def all : List Field := [.schema, .documents, .output, .preset, .extension, .config]

def name : Field → String
  | .schema => "schema"
  | .documents => "documents"
  | .output => "output"
  | .preset => "preset"
  | .extension => "extension"
  | .config => "config"

def ofName? (name : String) : Option Field := all.find? fun f => f.name == name

def isRead (fs : Fields) : Field → Bool
  | .schema => fs.schema?.isSome
  | .documents => fs.documents?.isSome
  | .output => fs.output?.isSome
  | .preset => fs.preset?.isSome
  | .extension => fs.extension?.isSome
  | .config => fs.config?.isSome

def read (fs : Fields) (d : Draft) : Field → Except Fault Fields
  | .schema => (readPath d).map fun v => { fs with schema? := some v }
  | .documents => (readPaths d).map fun v => { fs with documents? := some v }
  | .output => (readPath d).map fun v => { fs with output? := some v }
  | .preset => (readPreset d).map fun v => { fs with preset? := some v }
  | .extension => (readText "a string" d).map fun v => { fs with extension? := some v }
  | .config => (readConfig d).map fun v => { fs with config? := some v }

end Field

/-! ## Projects -/

/-- Reads a member of the object form. A key that names no field may have any well-formed value. -/
def readMember (fs : Fields) (key : Option String) (item : Draft) : Except Fault Fields :=
  match key with
  | some k =>
    match Field.ofName? k with
    | some f => if f.isRead fs then .error (.duplicateField k) else f.read fs item
    | none => if item.isWhole then .ok fs else .error .malformed
  | none => .error .malformed

def ofObject (members : List (Option String × Draft)) (closed : Bool) : Except Fault Project := do
  let fs ← members.foldlM (fun fs m => readMember fs m.1 m.2) Fields.none
  if closed then fs.toProject else throw .malformed

/-- The array form leaves out fields at its end, but not the first two. -/
def ofArray (items : List Draft) (closed : Bool) : Except Fault Project := do
  let fs ← (Field.all.zip items).foldlM (fun fs p => p.1.read fs p.2) Fields.none
  if closed && 2 ≤ items.length && items.length ≤ Field.all.length then fs.toProject else throw .malformed

/-- Reads a project; nothing but white space may follow it. -/
def decode (text : String) : Except Fault Project := do
  let (draft, atEnd) := Draft.read text
  let project ← match draft with
    | .object members closed => ofObject members closed
    | .array items closed => ofArray items closed
    | d => throw (mismatch d "struct ProjectConfig")
  if atEnd then return project else throw .malformed

end Composables.Project
