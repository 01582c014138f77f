import Composables.Collection.Gather
import Composables.Collection.Validation
import Composables.Module.Apollo
import Composables.Module.Basic
import Composables.Module.Specifier
import Composables.Module.Urql

/-
  Making a module of a collection under given options.
-/

namespace Composables

/-! ## Client libraries -/

namespace Client

def id : Client → String
  | .apollo => "vue-apollo"
  | .urql => "vue-urql"

/-- The lines in front of a module with functions. -/
def imports (client : Client) (options : Options) : List Import :=
  match client with
  | .apollo => Apollo.imports options
  | .urql => Urql.imports options

/-- The functions for one operation. -/
def functions (client : Client) (options : Options) (b : Binding) : List Part :=
  match client with
  | .apollo => Apollo.parts options b
  | .urql => [Urql.function b]

end Client

namespace Collection

/-! ## Imports -/

/-- Whether there is nothing that a constant could be declared for. -/
def isEmpty (c : Collection) : Bool := c.operations.isEmpty && c.fragments.isEmpty

/-- The names of the fragments that are spread somewhere in the collection. -/
def spreads (c : Collection) : List String :=
  c.fragments.flatMap Fragment.dependencies ++ c.operations.flatMap Operation.spreads

/-- Those of them that stand for imported fragments. -/
def referenced (c : Collection) : List String := c.spreads.filter c.isImported

/-- The imported constants that others refer to, one import for each module. -/
def fragmentImports (c : Collection) (n : Naming) : List Import :=
  let used := c.imported.filter fun f => c.referenced.contains f.name
  (groupConstants (used.map fun f => (f.module, n.fragmentConstant f.name))).map fun g => .fragments g.1 g.2

/-- The module of constants declared elsewhere. `sources` are the documents that the collection comes from. -/
def externalModule (options : Options) (sources : List Path) : Except Error String :=
  match options.externalModule? with
  | none => .error .missingExternalModule
  | some (.path path) => .ok (dropExtension path)
  | some .besideDocument =>
    match sources with
    | [source] => .ok ("./" ++ source.stem ++ if options.legacyImports then "" else ".js")
    | _ => .error (.ambiguousExternalModule sources.length)

/-- The imports that constants need, or that take their place. -/
def documentImports (c : Collection) (options : Options) (sources : List Path) : Except Error (List Import) :=
  let declared (i : Import) : List Import := if c.isEmpty then [] else [i]
  match options.documentMode with
  | .external =>
    if c.hasOperations then (externalModule options sources).map fun m => [.operations m] else .ok []
  | .graphQLTag => .ok (declared (.tag options.tagImport) ++ c.fragmentImports options.naming)
  | .documentNode => .ok (declared (.documentNode options.documentNodeImport))
  | .documentNodeImportFragments =>
    .ok (declared (.documentNode options.documentNodeImport) ++ c.fragmentImports options.naming)
  | .string => .ok (c.fragmentImports options.naming)

/-! ## Constants -/

/-- The document of a definition that spreads the given fragments. -/
def documentValue (c : Collection) (options : Options) (definition : Graphql.Definition) (spreads : List String) :
    DocumentValue :=
  let references := spreads.map options.naming.fragmentConstant
  match options.documentMode with
  | .documentNode =>
    .complete (definition :: (c.reachable spreads).map fun f => .fragment f.definition)
  | .documentNodeImportFragments => .spliced definition references
  | .string => .template .plain definition references
  | _ => .template (if options.pureComment then .pureGql else .gql) definition references

def fragmentConstant (c : Collection) (options : Options) (f : Fragment) : Constant where
  name := options.naming.fragmentConstant f.name
  exported := !options.noExport
  value := c.documentValue options (.fragment f.definition) f.dependencies

def operationConstant (c : Collection) (options : Options) (o : Operation) : Constant where
  name := options.naming.documentConstant o.name
  exported := !options.noExport
  value := c.documentValue options (.operation o.definition) o.spreads

/-- The constants of the fragments, then those of the operations. -/
def constants (c : Collection) (options : Options) : List Constant :=
  if options.documentMode.isInline then
    c.fragments.map (c.fragmentConstant options) ++ c.operations.map (c.operationConstant options)
  else []

/-! ## Functions -/

/-- The expression for an operation's document. -/
def documentReference (options : Options) (o : Operation) : String :=
  let constant := options.naming.documentConstant o.name
  if options.documentMode.isInline then constant else "Operations." ++ constant

def functionsOf (options : Options) (o : Operation) : List Part :=
  options.client.functions options (.ofOperation options.naming o (documentReference options o))

/-- Whether the module of the collection has functions. -/
def bindsFunctions (c : Collection) (options : Options) : Bool := options.functions && c.hasOperations

/-! ## The module -/

/-- The module of a collection. -/
def generate (c : Collection) (options : Options) (sources : List Path) : Except Error Module := do
  let imports ← c.documentImports options sources
  if c.bindsFunctions options then
    return { imports := imports ++ options.client.imports options, constants := c.constants options,
             functions := c.operations.map (functionsOf options) }
  else return { imports, constants := c.constants options, functions := [] }

end Collection

/-- Collects documents, checks them against a schema, and makes their module. -/
def generate (schema : Schema) (options : Options) (imported : List ImportedFragment) (documents : List Document) :
    Except Error Module := do
  let c ← Collection.ofDocuments documents imported
  c.validate schema
  c.generate options (documents.map Document.location)

end Composables
