import Composables.Json.Basic
import Composables.Naming.Basic
import Composables.Text.Blank

/-
  The options of a generation. They come as one flat object; each is read by itself, and what is missing,
  of another type or unknown counts as not given.
-/

namespace Composables

/-- The client library that functions are written for. -/
inductive Client where
  | apollo
  | urql
deriving DecidableEq, Repr, Inhabited

/-- How documents come into a module. -/
inductive DocumentMode where
  /-- Tagged templates. -/
  | graphQLTag
  /-- Trees that hold every definition needed. -/
  | documentNode
  /-- Trees that take fragments from other constants. -/
  | documentNodeImportFragments
  /-- Templates without a tag. -/
  | string
  /-- Constants of another module. -/
  | external
deriving DecidableEq, Repr, Inhabited

/-- Whether the constants are declared in the module itself. -/
def DocumentMode.isInline (mode : DocumentMode) : Bool := mode != .external

/-- Where constants declared elsewhere come from. -/
inductive ExternalModule where
  /-- The module with the name of the one source document. -/
  | besideDocument
  | path (path : String)
deriving DecidableEq, Repr

/-- A module, and the export of it that is meant; without one, its default export. -/
structure ImportSpec where
  module : String
  export? : Option String
deriving DecidableEq, Repr, Inhabited

/-- Reads `module` or `module#export`. -/
def ImportSpec.parse (text : String) : ImportSpec :=
  match text.toList.span (· ≠ '#') with
  | (module, _ :: e :: es) => ⟨String.ofList module, some (String.ofList (e :: es))⟩
  | (module, _) => ⟨String.ofList module, none⟩

/-! ## Options by their names -/

def Client.ofText? : String → Option Client
  | "vue-apollo" => some .apollo
  | "apollo" => some .apollo
  | "vue-urql" => some .urql
  | "urql" => some .urql
  | _ => none

def DocumentMode.ofText? : String → Option DocumentMode
  | "graphQLTag" => some .graphQLTag
  | "documentNode" => some .documentNode
  | "documentNodeImportFragments" => some .documentNodeImportFragments
  | "string" => some .string
  | "external" => some .external
  | _ => none

def ExternalModule.ofText : String → ExternalModule
  | "near-operation-file" => .besideDocument
  | s => .path s

def Convention.ofText : String → Convention
  | "keep" => .keep
  | "change-case-all#keep" => .keep
  | _ => .pascalCase

structure Options where
  client : Client
  docBlocks : Bool
  documentMode : DocumentMode
  externalModule? : Option ExternalModule
  /-- Whether modules beside a document are imported without the extension `.js`. -/
  legacyImports : Bool
  tagImport : ImportSpec
  documentNodeImport : ImportSpec
  apolloModule : String
  compositionModule : String
  urqlModule : String
  /-- Whether functions are generated. -/
  functions : Bool
  naming : Naming
  /-- Whether tagged templates are marked as free of effects. -/
  pureComment : Bool
  noExport : Bool
deriving DecidableEq, Repr, Inhabited

namespace Options

/-! ## Reading options -/

/-- An option that is text. -/
def text? (ms : Json.Members) (key : String) : Option String :=
  match Json.Members.get? ms key with
  | some (.string s) => some s
  | _ => none

def text (ms : Json.Members) (key standard : String) : String := (text? ms key).getD standard

/-- An option that is true or false, or says so in letters of any case. -/
def flag (ms : Json.Members) (key : String) (standard : Bool) : Bool :=
  match Json.Members.get? ms key with
  | some (.bool b) => b
  | some (.string s) =>
    let word := String.ofList ((Text.trim s.toList).map Char.toLower)
    if word = "true" then true else if word = "false" then false else standard
  | _ => standard

def readNaming (ms : Json.Members) : Naming where
  convention := ((text? ms "namingConvention").map Convention.ofText).getD .pascalCase
  transformUnderscore := flag ms "transformUnderscore" false
  dedupeOperationSuffix := flag ms "dedupeOperationSuffix" false
  omitOperationSuffix := flag ms "omitOperationSuffix" false
  typesPrefix := text ms "typesPrefix" ""
  typesSuffix := text ms "typesSuffix" ""
  operationResultSuffix := text ms "operationResultSuffix" ""
  documentVariablePrefix := text ms "documentVariablePrefix" ""
  documentVariableSuffix := text ms "documentVariableSuffix" "Document"
  fragmentVariablePrefix := text ms "fragmentVariablePrefix" ""
  fragmentVariableSuffix := text ms "fragmentVariableSuffix" "FragmentDoc"

/-- Reads all options. -/
def ofMembers (ms : Json.Members) : Options where
  client := ((text? ms "target").bind Client.ofText?).getD .apollo
  docBlocks := flag ms "addDocBlocks" true
  documentMode := ((text? ms "documentMode").bind DocumentMode.ofText?).getD .graphQLTag
  externalModule? := (text? ms "importDocumentNodeExternallyFrom").map ExternalModule.ofText
  legacyImports := flag ms "emitLegacyCommonJSImports" true
  tagImport := .parse (text ms "gqlImport" "graphql-tag")
  documentNodeImport := .parse (text ms "documentNodeImport" "graphql#DocumentNode")
  apolloModule := text ms "vueApolloComposableImportFrom" "@vue/apollo-composable"
  compositionModule := text ms "vueCompositionApiImportFrom" "vue"
  urqlModule := text ms "urqlImportFrom" "@urql/vue"
  functions := flag ms "withCompositionFunctions" true
  naming := readNaming ms
  pureComment := flag ms "pureMagicComment" false
  noExport := flag ms "noExport" false

end Options

end Composables
