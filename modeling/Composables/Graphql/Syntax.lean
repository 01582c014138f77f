import Composables.Decimal.Binary64

/-
  Executable GraphQL documents as trees. Positions are kept where a message may point to.
-/

namespace Composables.Graphql

/-- A place in a text; lines and columns count from one. -/
structure Position where
  line : Nat
  column : Nat
deriving DecidableEq, Repr, Inhabited

def Position.start : Position := ⟨1, 1⟩

inductive OperationKind where
  | query
  | mutation
  | subscription
deriving DecidableEq, Repr, Inhabited

namespace OperationKind

def all : List OperationKind := [.query, .mutation, .subscription]

/-- The word that opens an operation of the kind. -/
def keyword : OperationKind → String
  | .query => "query"
  | .mutation => "mutation"
  | .subscription => "subscription"

/-- The kind as a word of a name. -/
def word : OperationKind → String
  | .query => "Query"
  | .mutation => "Mutation"
  | .subscription => "Subscription"

def ofKeyword? (s : String) : Option OperationKind := all.find? fun kind => kind.keyword == s

theorem ofKeyword?_keyword (kind : OperationKind) : ofKeyword? kind.keyword = some kind := by
  cases kind <;> decide +kernel

end OperationKind

inductive TypeRef where
  | named (name : String)
  | list (inner : TypeRef)
  | nonNull (inner : TypeRef)
deriving DecidableEq, Repr, Inhabited

/-- Whether the outermost type excludes null. -/
def TypeRef.isNonNull : TypeRef → Bool
  | .nonNull _ => true
  | _ => false

inductive Value where
  | variable (name : String)
  | int (n : Int)
  | float (x : Decimal.Binary64)
  | string (s : String)
  | boolean (b : Bool)
  | null
  | enum (name : String)
  | list (items : List Value)
  /-- The fields are sorted by name, each name once. -/
  | object (fields : List (String × Value))
deriving Repr, Inhabited

/-- Sets a field among fields sorted by name: the last of equal names counts. -/
def Value.insertField (k : String) (v : Value) : List (String × Value) → List (String × Value)
  | [] => [(k, v)]
  | (k', v') :: fields =>
    if k < k' then (k, v) :: (k', v') :: fields
    else if k = k' then (k, v) :: fields
    else (k', v') :: insertField k v fields

abbrev Arguments := List (String × Value)

structure Directive where
  name : String
  arguments : Arguments
deriving Repr, Inhabited

inductive Selection where
  /-- The position is that of the alias, or of the name if there is none. -/
  | field (position : Position) (alias? : Option String) (name : String) (arguments : Arguments)
      (directives : List Directive) (selections : List Selection)
  /-- The position is that of the name. -/
  | spread (position : Position) (name : String) (directives : List Directive)
  /-- The position is that of what follows the dots. -/
  | inline (position : Position) (condition? : Option String) (directives : List Directive)
      (selections : List Selection)
deriving Repr, Inhabited

structure VariableDefinition where
  name : String
  type : TypeRef
  default? : Option Value
deriving Repr, Inhabited

structure OperationDefinition where
  position : Position
  kind : OperationKind
  name? : Option String
  variableDefinitions : List VariableDefinition
  directives : List Directive
  selections : List Selection
deriving Repr, Inhabited

structure FragmentDefinition where
  position : Position
  name : String
  condition : String
  directives : List Directive
  selections : List Selection
deriving Repr, Inhabited

inductive Definition where
  /-- A query that is a selection set and nothing else. -/
  | shorthand (position : Position) (selections : List Selection)
  | operation (d : OperationDefinition)
  | fragment (d : FragmentDefinition)
deriving Repr, Inhabited

def Definition.selections : Definition → List Selection
  | .shorthand _ selections => selections
  | .operation d => d.selections
  | .fragment d => d.selections

end Composables.Graphql
