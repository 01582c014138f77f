import Composables.FileSystem.Disk
import Composables.Layout
import Composables.Project.Load

/-
  Checking a project, and compiling it into modules.
-/

namespace Composables.Project

/-! ## Reading -/

/-- The extensions of documents in directories. -/
def documentExtensions : List String := ["graphql", "gql"]

def isDocument (p : Path) : Bool := p.extension?.any documentExtensions.contains

def loadDocument (fs : FileSystem) (p : Path) : Except Error Document := do
  Document.parse (← readFile fs p) p

/-- The documents' files at a path: a file, whatever its extension, or those in a directory at any depth. -/
def documentFiles (fs : FileSystem) (p : Path) : List Path :=
  if fs.isFile p then [p] else (fs.filesBelow p).filter isDocument

def loadRoot (fs : FileSystem) (p : Path) : Except Error (List Document) :=
  if fs.exists? p then (documentFiles fs p).mapM (loadDocument fs) else .error (.unreadable p .noDocumentRoot)

def loadDocuments (fs : FileSystem) (roots : List Path) : Except Error (List Document) := do
  return (← roots.mapM (loadRoot fs)).flatten

/-- A project as it is read: nothing in it fails to collect, and the schema admits it. -/
structure Loaded where
  schema : Schema
  documents : List Document
  collection : Collection
deriving Repr

def loadAll (fs : FileSystem) (p : Project) : Except Error Loaded := do
  let schema ← Schema.parse (← readFile fs p.schema) p.schema
  let documents ← loadDocuments fs p.documents
  if documents.isEmpty then throw .noDocuments
  let collection ← Collection.ofDocuments documents []
  collection.validate schema
  return { schema, documents, collection }

/-! ## Results -/

structure Report where
  operations : Nat
  fragments : Nat
  /-- The modules written. -/
  files : List Path
deriving DecidableEq, Repr

def Loaded.report (l : Loaded) (files : List Path) : Report :=
  ⟨l.collection.operations.length, l.collection.fragments.length, files⟩

/-- Checks a project; nothing is written. -/
def check (fs : FileSystem) (p : Project) : Except Error Report := do
  return (← loadAll fs p).report []

/-! ## Writing -/

/-- What may fail and may change files; changes before a failure stay. -/
abbrev Action (α : Type) := EStateM Error FileSystem α

def writeModule (p : Path) (m : Module) : Action Unit := fun fs =>
  match fs.writeWithParents p (.text m.render) with
  | .ok () fs => .ok () fs
  | .error fault fs => .error (.unwritable p fault) fs

/-- One module for all documents. -/
def compileSingle (p : Project) (l : Loaded) : Action (List Path) := do
  let m ← MonadExcept.ofExcept (generate l.schema p.options [] l.documents)
  writeModule p.output m
  return [p.output]

/-- The documents that get a module of their own. -/
def Loaded.sources (l : Loaded) : List Document :=
  l.documents.filter fun d => d.hasOperations || d.hasFragments

/-- The module of one document, written beside it. -/
def compileBeside (p : Project) (l : Loaded) (d : Document) : Action Path := do
  let m ← MonadExcept.ofExcept (Layout.generate l.schema p.options l.collection p.extension d)
  let path := Layout.outputPath d.location p.extension
  writeModule path m
  return path

/-- Compiles a project and writes its modules, one after the other. -/
def compile (p : Project) : Action Report := do
  let l ← MonadExcept.ofExcept (loadAll (← get) p)
  match p.preset with
  | .singleFile => return l.report (← compileSingle p l)
  | .nearOperationFile => return l.report (← l.sources.mapM (compileBeside p l))

end Composables.Project
