import Composables.Error
import Composables.Fragment.Basic

/-
  Putting fragments into an order in which each follows the fragments it spreads.
-/

namespace Composables.Fragment

/-- The first fragment with a name. -/
def indexOf? (fs : List Fragment) (name : String) : Option Nat := fs.findIdx? fun f => f.name == name

/-- The names of fragments given by their indices. -/
def namesAt (fs : List Fragment) (indices : List Nat) : List String :=
  indices.filterMap fun i => fs[i]?.map name

/-- Puts a fragment at the end of an order, behind all that it reaches by spreads. `path` leads to the fragment
from the one the visit began with; a fragment on it that is visited again closes a cycle. A path holds each index
once, so `room` is what is left of the number of fragments. -/
def visit (fs : List Fragment) (known : List String) :
    Nat → List Nat → List Nat → Nat → Except Error (List Nat)
  | 0, path, _, i => .error (.circularFragment (namesAt fs (path.dropWhile (· ≠ i) ++ [i])))
  | room + 1, path, order, i =>
    if i ∈ order then .ok order
    else if i ∈ path then .error (.circularFragment (namesAt fs (path.dropWhile (· ≠ i) ++ [i])))
    else
      match fs[i]? with
      | none => .ok order
      | some f => do
        let order ← f.dependencies.foldlM (fun order dependency =>
          match indexOf? fs dependency with
          | some j => visit fs known room (path ++ [i]) order j
          | none =>
            if dependency ∈ known then .ok order
            else .error (.unknownFragment dependency f.location)) order
        return order ++ [i]

/-- The indices of the fragments in the order of their visits. -/
def visitAll (fs : List Fragment) (known : List String) : Except Error (List Nat) :=
  (List.range fs.length).foldlM (visit fs known (fs.length + 1) []) []

/-- The fragments, each behind those it spreads. Fragments that do not depend on each other keep their order.
Names that are `known` may be spread without being among the fragments. -/
def order (fs : List Fragment) (known : List String) : Except Error (List Fragment) :=
  (visitAll fs known).map fun indices => indices.filterMap fun i => fs[i]?

end Composables.Fragment
