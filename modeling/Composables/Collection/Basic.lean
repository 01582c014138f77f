import Composables.Fragment.Basic
import Composables.Operation

/-
  The operations and fragments of a set of documents, with the fragments imported from elsewhere.
-/

namespace Composables

structure Collection where
  /-- In the order of their declaration. -/
  operations : List Operation
  /-- Each behind those it spreads. -/
  fragments : List Fragment
  imported : List ImportedFragment
deriving Repr, Inhabited

namespace Collection

def hasOperations (c : Collection) : Bool := !c.operations.isEmpty

/-- The fragment a name stands for; the collection's own come before the imported ones. -/
def fragment? (c : Collection) (name : String) : Option Fragment :=
  (c.fragments.find? fun f => f.name == name).or
    ((c.imported.find? fun f => f.name == name).map (·.fragment))

/-- Whether a name stands for an imported fragment. -/
def isImported (c : Collection) (name : String) : Bool :=
  !(c.fragments.any fun f => f.name == name) && c.imported.any fun f => f.name == name

/-! ## Reachable fragments -/

/-- Puts the fragment with a name behind `found`, and in front of it what it reaches, unless a fragment of that
name is there. `room` bounds how far spreads are followed. -/
def reach (c : Collection) : Nat → List Fragment → String → List Fragment
  | 0, found, _ => found
  | room + 1, found, name =>
    if found.any fun f => f.name == name then found
    else
      match c.fragment? name with
      | none => found
      | some f =>
        let found := f.dependencies.foldl (reach c room) found
        if found.any fun g => g.name == name then found else found ++ [f]

/-- The fragments reached from names, each behind those it spreads. Without a cycle no way along spreads is
longer than the number of fragments. -/
def reachable (c : Collection) (names : List String) : List Fragment :=
  names.foldl (c.reach (c.fragments.length + c.imported.length + 1)) []

end Collection

end Composables
