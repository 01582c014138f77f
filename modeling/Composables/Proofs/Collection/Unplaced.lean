import Composables.Collection.Gather
import Composables.Collection.Validation
import Composables.Proofs.Graphql.Unplaced
import Composables.Proofs.Outcome

/-
  Collections without places. Files and positions are carried along for messages; what is kept,
  which order fragments come in and what a schema refuses do not depend on them. Each stage
  commutes with taking the places away, from its value and from its error alike
  (`ofDocuments_unplaced`, `validate_unplaced`).
-/

namespace Composables

open Graphql (Definition unplacedAll)
open Outcome (bimap bind_eq_bimap map_eq_bimap foldlM_eq_bimap)

/-! ## Taking places away -/

def Location.nowhere : Location := ⟨⟨""⟩, .start⟩

/-- An error with the names in it, and nowhere to look for it. -/
def Error.unplaced : Error → Error
  | .duplicateFragment name _ _ => .duplicateFragment name .nowhere .nowhere
  | .duplicateOperation name _ _ => .duplicateOperation name .nowhere .nowhere
  | .unknownFragment name _ => .unknownFragment name .nowhere
  | .unknownType name _ => .unknownType name .nowhere
  | e => e

def Fragment.unplaced (f : Fragment) : Fragment := ⟨⟨""⟩, f.definition.unplaced⟩

def ImportedFragment.unplaced (f : ImportedFragment) : ImportedFragment :=
  ⟨f.fragment.unplaced, f.module⟩

def Operation.unplaced (o : Operation) : Operation := ⟨⟨""⟩, o.name, o.definition.unplaced⟩

/-- A document of which only the definitions count, and of these not where they stand. -/
def Document.unplaced (d : Document) : Document := ⟨⟨""⟩, d.definitions.map Definition.unplaced⟩

def Gathering.unplaced (g : Gathering) : Gathering :=
  ⟨g.operations.map Operation.unplaced, g.fragments.map Fragment.unplaced⟩

def Collection.unplaced (c : Collection) : Collection :=
  ⟨c.operations.map Operation.unplaced, c.fragments.map Fragment.unplaced,
    c.imported.map ImportedFragment.unplaced⟩

theorem Fragment.source_unplaced (f : Fragment) : f.unplaced.source = f.source :=
  f.definition.print_unplaced

theorem Fragment.dependencies_unplaced (f : Fragment) : f.unplaced.dependencies = f.dependencies :=
  Graphql.spreads_unplaced f.selections

theorem Operation.source_unplaced (o : Operation) : o.unplaced.source = o.source :=
  o.definition.print_unplaced

theorem Operation.spreads_unplaced (o : Operation) : o.unplaced.spreads = o.spreads :=
  Graphql.spreads_unplaced o.selections

/-! ## Gathering -/

section Keeping

open Declared (name source clash)

variable {α : Type} [Declared α] {u : α → α}

/-- Declarations seen through a function that leaves name and words are kept as before. -/
theorem keep_unplaced (hname : ∀ x, name (u x) = name x) (hsource : ∀ x, source (u x) = source x)
    (hclash : ∀ x y, clash (u x) (u y) = (clash x y).unplaced) (xs : List α) (x : α) :
    keep (xs.map u) (u x) = bimap Error.unplaced (List.map u) (keep xs x) := by
  have hsame : (fun y => name y == name (u x)) ∘ u = fun y => name y == name x := by
    funext y
    rw [Function.comp_apply, hname, hname]
  unfold keep
  rw [List.find?_map, hsame]
  cases xs.find? fun y => name y == name x with
  | none =>
      have happend : xs.map u ++ [u x] = (xs ++ [x]).map u := by
        rw [List.map_append, List.map_singleton]
      exact congrArg Except.ok happend
  | some first =>
      simp only [Option.map_some, hsource, hclash]
      split
      · rfl
      · rfl

end Keeping

theorem keep_operation_unplaced (os : List Operation) (o : Operation) :
    keep (os.map Operation.unplaced) o.unplaced =
      bimap Error.unplaced (List.map Operation.unplaced) (keep os o) :=
  keep_unplaced (u := Operation.unplaced) (fun _ => rfl) Operation.source_unplaced
    (fun _ _ => rfl) os o

theorem keep_fragment_unplaced (fs : List Fragment) (f : Fragment) :
    keep (fs.map Fragment.unplaced) f.unplaced =
      bimap Error.unplaced (List.map Fragment.unplaced) (keep fs f) :=
  keep_unplaced (u := Fragment.unplaced) (fun _ => rfl) Fragment.source_unplaced
    (fun _ _ => rfl) fs f

namespace Gathering

theorem addOperation_unplaced (g : Gathering) (o : Operation) :
    g.unplaced.addOperation o.unplaced = bimap Error.unplaced unplaced (g.addOperation o) :=
  map_eq_bimap (keep_operation_unplaced g.operations o) fun _ => rfl

theorem addFragment_unplaced (g : Gathering) (f : Fragment) :
    g.unplaced.addFragment f.unplaced = bimap Error.unplaced unplaced (g.addFragment f) :=
  map_eq_bimap (keep_fragment_unplaced g.fragments f) fun _ => rfl

theorem add_unplaced (g : Gathering) (file : Path) (x : Definition) :
    g.unplaced.add ⟨""⟩ x.unplaced = bimap Error.unplaced unplaced (g.add file x) := by
  cases x with
  | shorthand => rfl
  | operation definition =>
      have hname : definition.unplaced.name? = definition.name? := rfl
      cases h : definition.name? with
      | none =>
          simp only [add, Definition.unplaced, Operation.ofDefinition?, hname, h, Option.map_none]
          rfl
      | some n =>
          simp only [add, Definition.unplaced, Operation.ofDefinition?, hname, h, Option.map_some]
          exact g.addOperation_unplaced ⟨file, n, definition⟩
  | fragment definition => exact g.addFragment_unplaced ⟨file, definition⟩

theorem ofDocuments_unplaced (ds : List Document) :
    ofDocuments (ds.map Document.unplaced) = bimap Error.unplaced unplaced (ofDocuments ds) := by
  refine foldlM_eq_bimap (g := Document.unplaced) (h := unplaced) (fun g d => ?_) ds empty
  exact foldlM_eq_bimap (fun g x => g.add_unplaced d.location x) d.definitions g

theorem unknownSpread?_unplaced (g : Gathering) (known : String → Bool) :
    g.unplaced.unknownSpread? known = (g.unknownSpread? known).map Error.unplaced := by
  unfold unknownSpread?
  rw [List.map_findSome?, unplaced, List.findSome?_map]
  congr 1
  funext o
  simp only [Function.comp_apply, Operation.spreads_unplaced, Option.map_map]
  rfl

end Gathering

/-! ## Order -/

namespace Fragment

theorem indexOf?_unplaced (fs : List Fragment) (n : String) :
    indexOf? (fs.map unplaced) n = indexOf? fs n :=
  List.findIdx?_map

theorem namesAt_unplaced (fs : List Fragment) (indices : List Nat) :
    namesAt (fs.map unplaced) indices = namesAt fs indices := by
  unfold namesAt
  congr 1
  funext i
  rw [List.getElem?_map, Option.map_map]
  rfl

theorem visit_unplaced (fs : List Fragment) (known : List String) (room : Nat)
    (path order : List Nat) (i : Nat) :
    visit (fs.map unplaced) known room path order i =
      bimap Error.unplaced id (visit fs known room path order i) := by
  induction room generalizing path order i with
  | zero => rw [visit, visit, namesAt_unplaced]; rfl
  | succ room ih =>
      rw [visit, visit, namesAt_unplaced]
      split
      · rfl
      · split
        · rfl
        · rw [List.getElem?_map]
          cases fs[i]? with
          | none => rfl
          | some f =>
              dsimp only [Option.map_some]
              rw [f.dependencies_unplaced]
              refine bind_eq_bimap (g := id) ?_ fun _ => rfl
              nth_rewrite 1 [← List.map_id f.dependencies]
              refine foldlM_eq_bimap (g := id) (h := id) (fun order dependency => ?_) _ order
              rw [indexOf?_unplaced, id_eq]
              cases indexOf? fs dependency with
              | some j => exact ih (path ++ [i]) order j
              | none =>
                  dsimp only
                  split
                  · rfl
                  · rfl

theorem order_unplaced (fs : List Fragment) (known : List String) :
    order (fs.map unplaced) known = bimap Error.unplaced (List.map unplaced) (order fs known) := by
  have hvisits : visitAll (fs.map unplaced) known =
      bimap Error.unplaced id (visitAll fs known) := by
    unfold visitAll
    rw [List.length_map]
    nth_rewrite 1 [← List.map_id (List.range fs.length)]
    exact foldlM_eq_bimap (g := id) (h := id)
      (fun order i => visit_unplaced fs known _ [] order i) _ []
  refine map_eq_bimap hvisits fun indices => ?_
  rw [List.map_filterMap]
  congr 1
  funext i
  exact List.getElem?_map

end Fragment

/-! ## Collections -/

namespace Collection

theorem ofDocuments_unplaced (ds : List Document) (offered : List ImportedFragment) :
    ofDocuments (ds.map Document.unplaced) (offered.map ImportedFragment.unplaced) =
      bimap Error.unplaced unplaced (ofDocuments ds offered) := by
  unfold ofDocuments
  refine bind_eq_bimap (Gathering.ofDocuments_unplaced ds) fun g => ?_
  have hown : ∀ n, (g.unplaced.fragments.any fun f => f.name == n) =
      g.fragments.any fun f => f.name == n := fun n => List.any_map
  have himported : (offered.map ImportedFragment.unplaced).filter
      (fun f => !(g.fragments.any fun f' => f'.name == f.name)) =
        (offered.filter fun f => !(g.fragments.any fun f' => f'.name == f.name)).map
          ImportedFragment.unplaced := List.filter_map
  have hknown : ∀ fs : List ImportedFragment,
      (fs.map ImportedFragment.unplaced).map ImportedFragment.name =
        fs.map ImportedFragment.name := fun fs => List.map_map
  simp only [hown, himported, hknown, g.unknownSpread?_unplaced]
  cases g.unknownSpread? _ with
  | some e => rfl
  | none => exact bind_eq_bimap (Fragment.order_unplaced g.fragments _) fun _ => rfl

theorem missingRoot?_unplaced (c : Collection) (s : Schema) :
    c.unplaced.missingRoot? s = (c.missingRoot? s).map Error.unplaced := by
  unfold missingRoot?
  rw [unplaced, List.find?_map, Option.map_map, Option.map_map]
  rfl

end Collection

/-! ## Conditions -/

def Condition.unplaced (k : Condition) : Condition := ⟨k.type, .nowhere⟩

namespace Condition

theorem ofSelections_unplaced (file : Path) (ss : List Graphql.Selection) :
    ofSelections ⟨""⟩ (unplacedAll ss) = (ofSelections file ss).map unplaced := by
  unfold ofSelections
  rw [Graphql.walkAll_unplaced, List.filterMap_map, List.map_filterMap]
  congr 1
  funext s
  cases s with
  | field => rfl
  | spread => rfl
  | inline _ condition? _ _ => cases condition? <;> rfl

theorem ofFragment_unplaced (f : Fragment) :
    ofFragment f.unplaced = (ofFragment f).map unplaced := by
  rw [ofFragment, ofFragment, List.map_cons, ← ofSelections_unplaced]
  rfl

theorem ofOperation_unplaced (o : Operation) :
    ofOperation o.unplaced = (ofOperation o).map unplaced :=
  ofSelections_unplaced o.file o.selections

end Condition

namespace Collection

theorem conditions_unplaced (c : Collection) :
    c.unplaced.conditions = c.conditions.map Condition.unplaced := by
  unfold conditions
  rw [List.map_append, List.map_flatMap, List.map_flatMap, unplaced, List.flatMap_map,
    List.flatMap_map]
  simp only [Condition.ofFragment_unplaced, Condition.ofOperation_unplaced]

theorem unknownCondition?_unplaced (c : Collection) (s : Schema) :
    c.unplaced.unknownCondition? s = (c.unknownCondition? s).map Error.unplaced := by
  unfold unknownCondition?
  rw [conditions_unplaced, List.find?_map, Option.map_map, Option.map_map]
  rfl

theorem validate_unplaced (c : Collection) (s : Schema) :
    c.unplaced.validate s = bimap Error.unplaced id (c.validate s) := by
  unfold validate
  rw [missingRoot?_unplaced, unknownCondition?_unplaced, ← Option.map_or]
  cases (c.missingRoot? s).or (c.unknownCondition? s) with
  | none => rfl
  | some e => rfl

end Collection

end Composables
