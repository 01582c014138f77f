import Composables.Proofs.Collection.Gather
import Composables.Proofs.Distinct
import Composables.Proofs.Graphql.Bare
import Composables.Proofs.Module.Generate

/-
  What the import lines of fragments bind. They name the constants of those imported fragments that
  something spreads, each module on one line, in the order in which the fragments were offered
  (`fragmentLines_exact`). Where documents hold all their definitions, or constants come from
  elsewhere, there is no such line.
-/

namespace Composables

/-- The module and the constants of a line that imports fragments. -/
def Import.fragmentLine? : Import → Option (String × List String)
  | .fragments module constants => some (module, constants)
  | _ => none

/-- The lines that import fragments. -/
def fragmentLines (is : List Import) : List (String × List String) :=
  is.filterMap Import.fragmentLine?

theorem fragmentLines_append (is is' : List Import) :
    fragmentLines (is ++ is') = fragmentLines is ++ fragmentLines is' :=
  List.filterMap_append

namespace Collection

variable {c : Collection} {options : Options} {sources : List Path} {ds : List Document}
  {offered : List ImportedFragment}

/-- An imported fragment is spread by a fragment or an operation of the collection. -/
def Refers (c : Collection) (i : ImportedFragment) : Prop :=
  (∃ f ∈ c.fragments, i.name ∈ f.dependencies) ∨ ∃ o ∈ c.operations, i.name ∈ o.spreads

instance (c : Collection) : DecidablePred c.Refers := fun _ => inferInstanceAs (Decidable (_ ∨ _))

theorem refers_iff {i : ImportedFragment} : c.Refers i ↔ i.name ∈ c.spreads := by
  simp only [Refers, spreads, List.mem_append, List.mem_flatMap]

/-- The modules of the imported fragments that are spread, in the order in which these came. -/
def usedModules (c : Collection) : List String :=
  (c.imported.filter fun i => c.Refers i).map ImportedFragment.module

/-- Lines bind what a collection takes from other modules. -/
structure BoundBy (c : Collection) (n : Naming) (lines : List (String × List String)) : Prop where
  bound : ∀ module constant, Grouped lines module constant ↔
    ∃ i ∈ c.imported, c.Refers i ∧ i.module = module ∧ n.fragmentConstant i.name = constant
  /-- What is imported is not declared as well. -/
  imported : ∀ i ∈ c.imported, c.isImported i.name
  modules : (lines.map Prod.fst).Nodup
  constants : ∀ line ∈ lines, line.2 ≠ [] ∧ line.2.Nodup
  /-- A module stands where the first of its fragments that are spread does. -/
  order : (lines.map Prod.fst).Pairwise fun m m' => c.usedModules.idxOf m < c.usedModules.idxOf m'

theorem fragmentLines_fragmentImports (hc : Collects ds offered c) (n : Naming) :
    fragmentLines (c.fragmentImports n) = groupConstants ((c.imported.filter fun i =>
      c.Refers i).map fun i => (i.module, n.fragmentConstant i.name)) := by
  have hused : (c.imported.filter fun i => c.referenced.contains i.name) =
      c.imported.filter fun i => c.Refers i := by
    refine List.filter_congr fun i hi => ?_
    rw [Bool.eq_iff_iff, List.contains_iff_mem, decide_eq_true_iff, refers_iff, mem_referenced]
    exact and_iff_left (hc.isImported (List.mem_map_of_mem hi))
  rw [fragmentLines, fragmentImports, List.filterMap_map, hused]
  exact List.filterMap_some

/-- There are such lines in the modes that refer to constants, and they are the imports of
fragments. -/
theorem fragmentLines_documentImports {is : List Import}
    (h : c.documentImports options sources = .ok is) :
    fragmentLines is =
      if options.documentMode = .documentNode ∨ options.documentMode = .external then []
      else fragmentLines (c.fragmentImports options.naming) := by
  have hdeclared : ∀ i : Import, i.fragmentLine? = none →
      fragmentLines (if c.isEmpty then [] else [i]) = [] := by
    intro i hi
    split
    · rfl
    · exact List.filterMap_cons_none hi
  rcases documentImports_cases h with ⟨hmode, rfl⟩ | ⟨hmode, rfl⟩ | ⟨hmode, rfl⟩ | ⟨hmode, rfl⟩ |
    ⟨hmode, _, _, _, rfl⟩ | ⟨hmode, _, rfl⟩ <;> rw [hmode]
  · rw [fragmentLines_append, hdeclared _ rfl]
    rfl
  · rw [hdeclared _ rfl]
    rfl
  · rw [fragmentLines_append, hdeclared _ rfl]
    rfl
  · rfl
  · rfl
  · rfl

theorem boundBy_fragmentImports (hc : Collects ds offered c) (n : Naming) :
    c.BoundBy n (fragmentLines (c.fragmentImports n)) := by
  rw [fragmentLines_fragmentImports hc]
  constructor
  case bound =>
    intro module constant
    rw [grouped_groupConstants]
    simp only [List.mem_map, List.mem_filter, decide_eq_true_iff, Prod.mk.injEq, and_assoc]
  case imported => exact fun i hi => hc.isImported (List.mem_map_of_mem hi)
  case modules =>
    rw [map_fst_groupConstants]
    exact Distinct.nodup_ofList _
  case constants => exact formed_groupConstants _
  case order =>
    rw [map_fst_groupConstants, List.map_map]
    exact Distinct.pairwise_idxOf _

theorem boundBy_documentImports {is : List Import} (hc : Collects ds offered c)
    (h : c.documentImports options sources = .ok is)
    (hmode : options.documentMode ∈ [.graphQLTag, .string, .documentNodeImportFragments]) :
    c.BoundBy options.naming (fragmentLines is) := by
  rw [fragmentLines_documentImports h, if_neg]
  · exact boundBy_fragmentImports hc options.naming
  · generalize options.documentMode = mode at hmode
    revert mode
    decide

theorem fragmentLines_eq_nil {is : List Import} (h : c.documentImports options sources = .ok is)
    (hmode : options.documentMode ∈ [.documentNode, .external]) : fragmentLines is = [] := by
  rw [fragmentLines_documentImports h, if_pos]
  simpa using hmode

/-- The modes in which constants refer to those of fragments import exactly what is spread and not
declared; in the others no fragment is imported. -/
theorem fragmentLines_exact (hc : ofDocuments ds offered = .ok c) (options : Options)
    (sources : List Path) :
    (options.documentMode ∈ [.graphQLTag, .string, .documentNodeImportFragments] →
      ∃ is, c.documentImports options sources = .ok is ∧
        c.BoundBy options.naming (fragmentLines is)) ∧
    (options.documentMode ∈ [.documentNode, .external] →
      ∀ is, c.documentImports options sources = .ok is → fragmentLines is = []) := by
  constructor
  · intro hmode
    have hinline : options.documentMode.isInline := by
      generalize options.documentMode = mode at hmode
      revert mode
      decide
    obtain ⟨is, his⟩ : ∃ is, c.documentImports options sources = .ok is :=
      exists_documentImports hinline
    exact ⟨is, his, boundBy_documentImports (ofDocuments_eq_ok.mp hc) his hmode⟩
  · exact fun hmode is his => fragmentLines_eq_nil his hmode

/-- A query and a fragment that spread fragments of other modules, among them two whose constants
have one name. -/
def shop : Document :=
  ⟨⟨"shop.graphql"⟩, [.operation (.bare "Shop" ["Header", "item", "Item"]),
    .fragment (.bare "Header" ["Logo", "Item"])]⟩

/-- What is offered to the shop. Some of it is not spread, and the header is hidden by its own. -/
def offeredToShop : List ImportedFragment :=
  [("Price", "./price"), ("Logo", "./brand"), ("Item", "./item"), ("Header", "./brand"),
    ("item", "./item"), ("Item", "./brand")].map fun e =>
      ⟨⟨⟨"other.graphql"⟩, .bare e.1 []⟩, e.2⟩

theorem fragmentLines_exact_shop : ∃ c, ofDocuments [shop] offeredToShop = .ok c ∧
    (Options.ofMembers []).documentMode ∈ [.graphQLTag, .string, .documentNodeImportFragments] ∧
    ∃ is, c.documentImports (.ofMembers []) [shop.location] = .ok is ∧
      fragmentLines is =
        [("./brand", ["LogoFragmentDoc", "ItemFragmentDoc"]), ("./item", ["ItemFragmentDoc"])] ∧
      c.BoundBy (Options.ofMembers []).naming (fragmentLines is) := by
  obtain ⟨c, hc⟩ : ∃ c, ofDocuments [shop] offeredToShop = .ok c := ⟨_, rfl⟩
  have hmode : (Options.ofMembers []).documentMode ∈
      [.graphQLTag, .string, .documentNodeImportFragments] := by decide +kernel
  obtain ⟨is, his, hbound⟩ :=
    (fragmentLines_exact hc (.ofMembers []) [shop.location]).1 hmode
  refine ⟨c, hc, hmode, is, his, ?_, hbound⟩
  obtain rfl := Except.ok.inj hc
  obtain rfl := Except.ok.inj his
  decide +kernel

end Collection

end Composables
