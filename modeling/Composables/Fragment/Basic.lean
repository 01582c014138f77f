import Composables.Graphql.Printer
import Composables.Graphql.Walk
import Composables.Location

/-
  Fragments with the file they come from.
-/

namespace Composables

structure Fragment where
  file : Path
  definition : Graphql.FragmentDefinition
deriving Repr, Inhabited

namespace Fragment

def name (f : Fragment) : String := f.definition.name

/-- The type the fragment selects from. -/
def condition (f : Fragment) : String := f.definition.condition

def selections (f : Fragment) : List Graphql.Selection := f.definition.selections

/-- The names of the fragments it spreads, each once. -/
def dependencies (f : Fragment) : List String := Graphql.spreads f.selections

/-- The definition as it is printed. -/
def source (f : Fragment) : String := f.definition.print

def location (f : Fragment) : Location := ⟨f.file, f.definition.position⟩

end Fragment

/-- A fragment that another module declares. -/
structure ImportedFragment where
  fragment : Fragment
  /-- The module to import it from. -/
  module : String
deriving Repr, Inhabited

def ImportedFragment.name (f : ImportedFragment) : String := f.fragment.name

end Composables
