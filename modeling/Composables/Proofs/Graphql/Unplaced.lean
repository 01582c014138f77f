import Composables.Graphql.Printer
import Composables.Graphql.Tree
import Composables.Graphql.Walk

/-
  Definitions without their positions. Positions are in the trees for messages only: they change
  neither the print of a definition nor its JSON tree (`Definition.print_unplaced`,
  `Definition.toJson_unplaced`), nor what is met on a walk (`walkAll_unplaced`).
-/

namespace Composables.Graphql

mutual

def Selection.unplaced : Selection → Selection
  | .field _ alias? name arguments directives selections =>
    .field .start alias? name arguments directives (unplacedAll selections)
  | .spread _ name directives => .spread .start name directives
  | .inline _ condition? directives selections =>
    .inline .start condition? directives (unplacedAll selections)

def unplacedAll : List Selection → List Selection
  | [] => []
  | s :: ss => s.unplaced :: unplacedAll ss

end

def OperationDefinition.unplaced (d : OperationDefinition) : OperationDefinition :=
  { d with position := .start, selections := unplacedAll d.selections }

def FragmentDefinition.unplaced (d : FragmentDefinition) : FragmentDefinition :=
  { d with position := .start, selections := unplacedAll d.selections }

/-- A definition with the start of the text in place of each position. -/
def Definition.unplaced : Definition → Definition
  | .shorthand _ selections => .shorthand .start (unplacedAll selections)
  | .operation d => .operation d.unplaced
  | .fragment d => .fragment d.unplaced

theorem isEmpty_unplacedAll (ss : List Selection) : (unplacedAll ss).isEmpty = ss.isEmpty := by
  cases ss <;> rfl

/-! ## Prints -/

mutual

theorem Selection.print_unplaced (indent : Nat) : ∀ s : Selection,
    s.unplaced.print indent = s.print indent
  | .field _ alias? name arguments directives selections => by
    rw [Selection.unplaced]
    cases alias? <;>
      rw [Selection.print, Selection.print, isEmpty_unplacedAll, printSet, printSet,
        printSelections_unplaced (indent + 2) selections]
  | .spread _ name directives => by rw [Selection.unplaced, Selection.print, Selection.print]
  | .inline _ condition? directives selections => by
    rw [Selection.unplaced, Selection.print, Selection.print, printSet, printSet,
      printSelections_unplaced (indent + 2) selections]

theorem printSelections_unplaced (indent : Nat) : ∀ ss : List Selection,
    printSelections indent (unplacedAll ss) = printSelections indent ss
  | [] => rfl
  | s :: ss => by
    rw [unplacedAll, printSelections, printSelections, s.print_unplaced indent,
      printSelections_unplaced indent ss]

end

theorem printSet_unplaced (indent : Nat) (ss : List Selection) :
    printSet indent (unplacedAll ss) = printSet indent ss := by
  rw [printSet, printSet, printSelections_unplaced]

theorem OperationDefinition.print_unplaced (d : OperationDefinition) :
    d.unplaced.print = d.print := by
  unfold print
  rw [unplaced, printSet_unplaced]
  rfl

theorem FragmentDefinition.print_unplaced (d : FragmentDefinition) :
    d.unplaced.print = d.print := by
  unfold print
  rw [unplaced, printSet_unplaced]

theorem Definition.print_unplaced (x : Definition) : x.unplaced.print = x.print := by
  cases x with
  | shorthand position selections => exact printSet_unplaced 0 selections
  | operation d => exact d.print_unplaced
  | fragment d => exact d.print_unplaced

/-! ## JSON trees -/

mutual

theorem Selection.toJson_unplaced : ∀ s : Selection, s.unplaced.toJson = s.toJson
  | .field _ alias? name arguments directives selections => by
    rw [Selection.unplaced, Selection.toJson, Selection.toJson, isEmpty_unplacedAll, setNode,
      setNode, selectionNodes_unplaced selections]
  | .spread _ name directives => by rw [Selection.unplaced, Selection.toJson, Selection.toJson]
  | .inline _ condition? directives selections => by
    rw [Selection.unplaced, Selection.toJson, Selection.toJson, setNode, setNode,
      selectionNodes_unplaced selections]

theorem selectionNodes_unplaced : ∀ ss : List Selection,
    selectionNodes (unplacedAll ss) = selectionNodes ss
  | [] => rfl
  | s :: ss => by
    rw [unplacedAll, selectionNodes, selectionNodes, s.toJson_unplaced, selectionNodes_unplaced ss]

end

theorem setNode_unplaced (ss : List Selection) : setNode (unplacedAll ss) = setNode ss := by
  rw [setNode, setNode, selectionNodes_unplaced]

theorem Definition.toJson_unplaced (x : Definition) : x.unplaced.toJson = x.toJson := by
  cases x with
  | shorthand position selections =>
      rw [unplaced, toJson, toJson, operationNode, operationNode, setNode_unplaced]
  | operation d =>
      rw [unplaced, toJson, toJson, OperationDefinition.toJson, OperationDefinition.toJson,
        OperationDefinition.unplaced, operationNode, operationNode, setNode_unplaced]
  | fragment d =>
      rw [unplaced, toJson, toJson, FragmentDefinition.toJson, FragmentDefinition.toJson,
        FragmentDefinition.unplaced, setNode_unplaced]

/-! ## Walks -/

mutual

theorem Selection.walk_unplaced : ∀ s : Selection,
    s.unplaced.walk = s.walk.map Selection.unplaced
  | .field _ alias? name arguments directives selections => by
    rw [Selection.unplaced, Selection.walk, Selection.walk, walkAll_unplaced selections,
      List.map_cons, Selection.unplaced]
  | .spread _ name directives => by
    rw [Selection.unplaced, Selection.walk, Selection.walk, List.map_singleton, Selection.unplaced]
  | .inline _ condition? directives selections => by
    rw [Selection.unplaced, Selection.walk, Selection.walk, walkAll_unplaced selections,
      List.map_cons, Selection.unplaced]

/-- The same selections are met in the same order. -/
theorem walkAll_unplaced : ∀ ss : List Selection,
    walkAll (unplacedAll ss) = (walkAll ss).map Selection.unplaced
  | [] => rfl
  | s :: ss => by
    rw [unplacedAll, walkAll, walkAll, s.walk_unplaced, walkAll_unplaced ss, List.map_append]

end

theorem spreads_unplaced (ss : List Selection) : spreads (unplacedAll ss) = spreads ss := by
  have hname : Selection.spreadName? ∘ Selection.unplaced = Selection.spreadName? := by
    funext s
    cases s <;> rfl
  rw [spreads, spreads, walkAll_unplaced, List.filterMap_map, hname]

end Composables.Graphql
