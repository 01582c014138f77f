import Composables.Graphql.Syntax

/-
  Definitions that do nothing but spread fragments. They are the smallest that have a place in the
  order of fragments.
-/

namespace Composables.Graphql

/-- Selections that spread the given fragments. -/
def bareSelections (spreads : List String) : List Selection :=
  spreads.map fun s => .spread .start s []

def FragmentDefinition.bare (name : String) (spreads : List String) : FragmentDefinition :=
  ⟨.start, name, "T", [], bareSelections spreads⟩

def OperationDefinition.bare (name : String) (spreads : List String) : OperationDefinition :=
  ⟨.start, .query, some name, [], [], bareSelections spreads⟩

end Composables.Graphql
