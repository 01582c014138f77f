import Composables.Collection.Basic
import Composables.Document
import Composables.Fragment.Order

/-
  Gathering the definitions of documents. A definition that comes again in the same words counts once; other
  words under the same name are an error.
-/

namespace Composables

open Graphql (Definition)

/-- What declarations are told apart by. -/
class Declared (α : Type) where
  name : α → String
  /-- The words of the declaration. -/
  source : α → String
  /-- The error where a later declaration says something else than an earlier one of its name. -/
  clash : α → α → Error

instance : Declared Operation where
  name := Operation.name
  source := Operation.source
  clash first second := .duplicateOperation second.name first.location second.location

instance : Declared Fragment where
  name := Fragment.name
  source := Fragment.source
  clash first second := .duplicateFragment second.name first.location second.location

/-- Puts a declaration behind the others, unless it is there in the same words. -/
def keep {α : Type} [Declared α] (xs : List α) (x : α) : Except Error (List α) :=
  match xs.find? fun y => Declared.name y == Declared.name x with
  | none => .ok (xs ++ [x])
  | some first =>
    if Declared.source first = Declared.source x then .ok xs else .error (Declared.clash first x)

/-- What has been gathered, in the order of declaration. -/
structure Gathering where
  operations : List Operation
  fragments : List Fragment
deriving Repr, Inhabited

namespace Gathering

def empty : Gathering := ⟨[], []⟩

def addOperation (g : Gathering) (o : Operation) : Except Error Gathering :=
  (keep g.operations o).map fun operations => { g with operations }

def addFragment (g : Gathering) (f : Fragment) : Except Error Gathering :=
  (keep g.fragments f).map fun fragments => { g with fragments }

/-- Adds a definition of a file; operations without a name are passed over. -/
def add (g : Gathering) (file : Path) : Definition → Except Error Gathering
  | .shorthand .. => .ok g
  | .operation definition =>
    match Operation.ofDefinition? file definition with
    | some o => g.addOperation o
    | none => .ok g
  | .fragment definition => g.addFragment { file, definition }

def addDocument (g : Gathering) (d : Document) : Except Error Gathering :=
  d.definitions.foldlM (fun g definition => g.add d.location definition) g

def ofDocuments (ds : List Document) : Except Error Gathering := ds.foldlM addDocument empty

/-- The first spread of an operation that no name is known for. -/
def unknownSpread? (g : Gathering) (known : String → Bool) : Option Error :=
  g.operations.findSome? fun o =>
    (o.spreads.find? fun name => !known name).map fun name => .unknownFragment name o.location

end Gathering

/-- Collects documents. A fragment of their own hides an imported one of the same name; all that is spread has
to be one or the other. -/
def Collection.ofDocuments (ds : List Document) (imported : List ImportedFragment) :
    Except Error Collection := do
  let g ← Gathering.ofDocuments ds
  let isOwn (name : String) : Bool := g.fragments.any fun f => f.name == name
  let imported := imported.filter fun f => !isOwn f.name
  let known := imported.map ImportedFragment.name
  match g.unknownSpread? fun name => isOwn name || known.contains name with
  | some e => throw e
  | none => return { operations := g.operations, fragments := ← Fragment.order g.fragments known, imported }

end Composables
