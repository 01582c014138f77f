import Composables.Graphql.Printer
import Composables.Graphql.Walk
import Composables.Location

/-
  Operations with a name, and the file they come from.
-/

namespace Composables

open Graphql (OperationKind OperationDefinition VariableDefinition Selection)

structure Operation where
  file : Path
  name : String
  definition : OperationDefinition
deriving Repr, Inhabited

namespace Operation

/-- An operation without a name is none to generate anything for. -/
def ofDefinition? (file : Path) (definition : OperationDefinition) : Option Operation :=
  definition.name?.map fun name => { file, name, definition }

def kind (o : Operation) : OperationKind := o.definition.kind

def variableDefinitions (o : Operation) : List VariableDefinition := o.definition.variableDefinitions

def hasVariables (o : Operation) : Bool := !o.variableDefinitions.isEmpty

/-- Whether some variable excludes null, so that callers have to pass it. -/
def hasRequiredVariables (o : Operation) : Bool := o.variableDefinitions.any fun v => v.type.isNonNull

def selections (o : Operation) : List Selection := o.definition.selections

/-- The names of the fragments it spreads, each once. -/
def spreads (o : Operation) : List String := Graphql.spreads o.selections

/-- The definition as it is printed. -/
def source (o : Operation) : String := o.definition.print

def location (o : Operation) : Location := ⟨o.file, o.definition.position⟩

end Operation

end Composables
