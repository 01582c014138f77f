import Composables.FileSystem.Fault
import Composables.Location
import Composables.Project.Fault

/-
  What can go wrong between a project file and the modules made from it.
-/

namespace Composables

inductive Error where
  | unreadable (path : Path) (fault : FileSystem.Fault)
  | unwritable (path : Path) (fault : FileSystem.Fault)
  /-- No definition can be read on at the position. -/
  | documentSyntax (path : Path) (position : Graphql.Position)
  | schemaSyntax (path : Path) (position : Graphql.Position)
  | invalidProject (path : Path) (fault : Project.Fault)
  /-- Operations are bound to an external module, but none is given. -/
  | missingExternalModule
  /-- The external module is to lie beside the document, but there is not exactly one. -/
  | ambiguousExternalModule (count : Nat)
  | noDocuments
  | duplicateFragment (name : String) (first second : Location)
  | duplicateOperation (name : String) (first second : Location)
  | unknownFragment (name : String) (location : Location)
  /-- Each fragment spreads the next; the last is the first again. -/
  | circularFragment (cycle : List String)
  | missingRootType (kind : Graphql.OperationKind) (operation : String)
  | unknownType (name : String) (location : Location)
deriving DecidableEq, Repr

namespace Error

def syntaxMessage (what : String) (position : Graphql.Position) : String :=
  what ++ " parse error: Parse error at " ++ toString position.line ++ ":" ++ toString position.column

def message : Error → String
  | .unreadable path fault => "Failed to read file '" ++ path.text ++ "': " ++ fault.message
  | .unwritable path fault => "Failed to write file '" ++ path.text ++ "': " ++ fault.message
  | .documentSyntax path position =>
    "Failed to parse GraphQL document " ++ path.text ++ ": " ++ syntaxMessage "query" position
  | .schemaSyntax path position =>
    "Failed to parse GraphQL schema " ++ path.text ++ ": " ++ syntaxMessage "schema" position
  | .invalidProject path fault =>
    "Failed to read project configuration " ++ path.text ++ ": " ++ fault.message
  | .missingExternalModule => "documentMode 'external' needs importDocumentNodeExternallyFrom"
  | .ambiguousExternalModule count =>
    "importDocumentNodeExternallyFrom 'near-operation-file' needs exactly one document, got " ++ toString count
  | .noDocuments => "No GraphQL documents found"
  | .duplicateFragment name _ _ => "Fragment '" ++ name ++ "' is defined twice with different selections"
  | .duplicateOperation name _ _ => "Operation '" ++ name ++ "' is defined twice with different selections"
  | .unknownFragment name location => "Unknown fragment '" ++ name ++ "' spread at " ++ location.render
  | .circularFragment cycle => "Circular fragment reference: " ++ " -> ".intercalate cycle
  | .missingRootType kind operation =>
    "Schema has no " ++ kind.keyword ++ " root type, needed by operation '" ++ operation ++ "'"
  | .unknownType name location => "Unknown type '" ++ name ++ "' in type condition at " ++ location.render

/-- The code under which an error is documented. -/
def code : Error → String
  | .unreadable .. => "vue_compose::io::read_error"
  | .unwritable .. => "vue_compose::io::write_error"
  | .documentSyntax .. => "vue_compose::parse::document"
  | .schemaSyntax .. => "vue_compose::parse::schema"
  | .invalidProject .. => "vue_compose::config::invalid_project"
  | .missingExternalModule => "vue_compose::config::missing_external_module"
  | .ambiguousExternalModule _ => "vue_compose::config::near_operation_file"
  | .noDocuments => "vue_compose::analysis::no_documents"
  | .duplicateFragment .. => "vue_compose::analysis::duplicate_fragment"
  | .duplicateOperation .. => "vue_compose::analysis::duplicate_operation"
  | .unknownFragment .. => "vue_compose::analysis::unknown_fragment"
  | .circularFragment _ => "vue_compose::analysis::circular_fragment"
  | .missingRootType .. => "vue_compose::schema::missing_root_type"
  | .unknownType .. => "vue_compose::schema::unknown_type"

/-- Advice on how to mend the error. -/
def help? : Error → Option String
  | .documentSyntax .. =>
    some "Documents must contain only executable definitions (operations and fragments)."
  | .invalidProject .. =>
    some "codegen.json needs at least \"schema\", \"documents\" and \"output\"."
  | .missingExternalModule =>
    some "Set importDocumentNodeExternallyFrom to a module path or to 'near-operation-file'."
  | .ambiguousExternalModule _ =>
    some "Use the near-operation-file preset so every document is generated on its own."
  | .noDocuments => some "Point \"documents\" at .graphql/.gql files or directories containing them."
  | .duplicateFragment .. => some "Fragment names must be unique across all documents."
  | .duplicateOperation .. => some "Operation names must be unique across all documents."
  | .circularFragment _ =>
    some "A fragment cannot spread itself, directly or through other fragments."
  | _ => none

end Error

end Composables
