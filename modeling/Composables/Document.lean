import Composables.Error
import Composables.Graphql.Grammar
import Composables.Graphql.Printer
import Composables.Graphql.Walk

/-
  A document: the definitions of one file.
-/

namespace Composables

open Graphql (Definition)

structure Document where
  location : Path
  definitions : List Definition
deriving Repr, Inhabited

/-- The name of an operation; a shorthand and a fragment have none. -/
def Graphql.Definition.operationName? : Definition → Option String
  | .operation d => d.name?
  | _ => none

def Graphql.Definition.isFragment : Definition → Bool
  | .fragment _ => true
  | _ => false

namespace Document

def parse (text : String) (location : Path) : Except Error Document :=
  match Graphql.parseDocument text with
  | .ok definitions => .ok { location, definitions }
  | .error position => .error (.documentSyntax location position)

/-- Whether the document has an operation with a name. -/
def hasOperations (d : Document) : Bool := d.definitions.any fun def' => def'.operationName?.isSome

def hasFragments (d : Document) : Bool := d.definitions.any Definition.isFragment

/-- The file name without its extension. -/
def stem (d : Document) : String := d.location.stem

end Document

end Composables
