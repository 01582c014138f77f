import Composables.Graphql.Syntax
import Composables.Naming.Words

/-
  How generated names come from the names of operations and fragments.
-/

namespace Composables

open Graphql (OperationKind)

inductive Convention where
  | pascalCase
  | keep
deriving DecidableEq, Repr, Inhabited

/-- The options that names depend on. -/
structure Naming where
  convention : Convention
  /-- Whether underscores separate words like any other sign. Otherwise they stay. -/
  transformUnderscore : Bool
  dedupeOperationSuffix : Bool
  omitOperationSuffix : Bool
  typesPrefix : String
  typesSuffix : String
  operationResultSuffix : String
  documentVariablePrefix : String
  documentVariableSuffix : String
  fragmentVariablePrefix : String
  fragmentVariableSuffix : String
deriving DecidableEq, Repr, Inhabited

namespace Naming

/-- A name in pascal case. -/
def pascal (name : String) : String := String.ofList (pascalCase name.toList)

/-- A name under the convention. -/
def convert (n : Naming) (name : String) : String :=
  match n.convention with
  | .keep => name
  | .pascalCase =>
    if n.transformUnderscore then pascal name
    else String.ofList (Text.join ['_'] ((Text.split '_' name.toList).map pascalCase))

def lower (s : String) : List Char := s.toList.map Char.toLower

/-- Whether a name ends in the word of its kind, whatever the case of the letters. -/
def endsInKind (name : String) (kind : OperationKind) : Bool := (lower kind.word).isSuffixOf (lower name)

/-- The word of the kind that is put behind an operation's name, if any. -/
def suffix (n : Naming) (name : String) (kind : OperationKind) : String :=
  if n.omitOperationSuffix || (n.dedupeOperationSuffix && endsInKind name kind) then "" else kind.word

/-- The converted name of an operation with its suffix. -/
def base (n : Naming) (name : String) (kind : OperationKind) : String := n.convert name ++ n.suffix name kind

/-- The name of an operation's function. -/
def function (n : Naming) (name : String) (kind : OperationKind) : String := "use" ++ n.base name kind

/-- A name without the word of its kind at its end and without the signs in front of that word; a name that is
nothing else stays whole. -/
def withoutKind (name : String) (kind : OperationKind) : String :=
  let front := (name.toList.reverse.drop kind.word.length).dropWhile fun c => c == '_' || c == '-'
  if front.isEmpty then name else String.ofList front.reverse

/-- The name of a query's lazy function. A kind word that counts as the suffix is taken off before. -/
def lazyFunction (n : Naming) (name : String) (kind : OperationKind) : String :=
  let deduped := !n.omitOperationSuffix && (n.suffix name kind).isEmpty
  "use" ++ n.convert (if deduped then withoutKind name kind else name) ++ "LazyQuery"

def resultType (n : Naming) (name : String) (kind : OperationKind) : String :=
  n.typesPrefix ++ n.base name kind ++ n.operationResultSuffix ++ n.typesSuffix

def variablesType (n : Naming) (name : String) (kind : OperationKind) : String :=
  n.typesPrefix ++ n.base name kind ++ "Variables" ++ n.typesSuffix

/-- The name of the exported type of a function's result. -/
def resultAlias (n : Naming) (name : String) (kind : OperationKind) : String :=
  n.base name kind ++ "CompositionFunctionResult"

/-- The constant that holds an operation's document. -/
def documentConstant (n : Naming) (name : String) : String :=
  n.documentVariablePrefix ++ n.convert name ++ n.documentVariableSuffix

/-- The constant that holds a fragment's document. -/
def fragmentConstant (n : Naming) (name : String) : String :=
  n.fragmentVariablePrefix ++ n.convert name ++ n.fragmentVariableSuffix

end Naming

end Composables
