import Composables.Error
import Composables.Graphql.SchemaGrammar

/-
  What a schema tells about documents: the root type of each kind of operation, and which types there are.
-/

namespace Composables

open Graphql (Declaration OperationKind RootTypes)

structure Schema where
  roots : RootTypes
  /-- The names of the declared types. -/
  types : List String
deriving DecidableEq, Repr

namespace Schema

def typeName? : Declaration → Option String
  | .type name => some name
  | _ => none

def roots? : Declaration → Option RootTypes
  | .roots roots => some roots
  | _ => none

/-- The root types by their usual names, as far as they are declared. -/
def usualRoots (types : List String) : RootTypes :=
  let declared (name : String) : Option String := if name ∈ types then some name else none
  ⟨declared "Query", declared "Mutation", declared "Subscription"⟩

/-- The last block of root types counts; without one the root types have their usual names. -/
def ofDeclarations (ds : List Declaration) : Schema :=
  let types := ds.filterMap typeName?
  { roots := ((ds.filterMap roots?).getLast?).getD (usualRoots types), types }

def parse (text : String) (path : Path) : Except Error Schema :=
  match Graphql.parseSchema text with
  | .ok ds => .ok (ofDeclarations ds)
  | .error position => .error (.schemaSyntax path position)

/-- The type that operations of a kind select from. -/
def rootType? (s : Schema) (kind : OperationKind) : Option String := s.roots.get? kind

def hasType (s : Schema) (name : String) : Bool := s.types.contains name

end Schema

end Composables
