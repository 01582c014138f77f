import Composables.Distinct
import Composables.Graphql.Syntax

/-
  The selections of a tree in depth-first order, and the fragments they spread.
-/

namespace Composables.Graphql

mutual

/-- A selection and all selections inside it. -/
def Selection.walk : Selection → List Selection
  | .field position alias? name arguments directives selections =>
    .field position alias? name arguments directives selections :: walkAll selections
  | .spread position name directives => [.spread position name directives]
  | .inline position condition? directives selections =>
    .inline position condition? directives selections :: walkAll selections

/-- All selections of a list of trees, each in front of those inside it. -/
def walkAll : List Selection → List Selection
  | [] => []
  | s :: ss => s.walk ++ walkAll ss

end

/-- The name of the fragment that a selection spreads. -/
def Selection.spreadName? : Selection → Option String
  | .spread _ name _ => some name
  | _ => none

/-- The names of the fragments spread anywhere in the selections, in the order of their first spread. -/
def spreads (selections : List Selection) : List String :=
  Distinct.ofList ((walkAll selections).filterMap Selection.spreadName?)

/-! ## Concatenation -/

theorem walkAll_append (ss ts : List Selection) : walkAll (ss ++ ts) = walkAll ss ++ walkAll ts := by
  induction ss with
  | nil => simp [walkAll]
  | cons s ss ih => simp [walkAll, ih]

end Composables.Graphql
