import Mathlib
import Composables.Proofs.Collection.Reachable
import Composables.Proofs.Collection.Unplaced
import Composables.Proofs.Module.Generate

/-
  Modules without places. Where a definition stands reaches neither a constant nor a function nor
  an import, so documents that differ only in their files and in the positions inside them have
  one output, or fail in one way (`generate_eq_of_unplaced`).
-/

namespace Composables

open Graphql (Definition)
open Outcome (bimap bind_eq_bimap)

/-! ## Reachable fragments -/

namespace Collection

variable {options : Options}

theorem fragment?_unplaced (c : Collection) (n : String) :
    c.unplaced.fragment? n = (c.fragment? n).map Fragment.unplaced := by
  unfold fragment?
  rw [unplaced, List.find?_map, List.find?_map, Option.map_or, Option.map_map, Option.map_map]
  rfl

theorem any_name_unplaced (fs : List Fragment) (n : String) :
    ((fs.map Fragment.unplaced).any fun f => f.name == n) = fs.any fun f => f.name == n :=
  List.any_map

theorem foldl_reach_unplaced {c : Collection} {room : Nat}
    (h : ∀ found n, c.unplaced.reach room (found.map Fragment.unplaced) n =
      (c.reach room found n).map Fragment.unplaced) (names : List String)
    (found : List Fragment) :
    names.foldl (c.unplaced.reach room) (found.map Fragment.unplaced) =
      (names.foldl (c.reach room) found).map Fragment.unplaced :=
  List.foldl_hom (List.map Fragment.unplaced) h

theorem reach_unplaced (c : Collection) (room : Nat) (found : List Fragment) (n : String) :
    c.unplaced.reach room (found.map Fragment.unplaced) n =
      (c.reach room found n).map Fragment.unplaced := by
  induction room generalizing found n with
  | zero => rfl
  | succ room ih =>
      rw [reach_succ, reach_succ, any_name_unplaced, fragment?_unplaced]
      split
      · rfl
      · cases c.fragment? n with
        | none => rfl
        | some f =>
            simp only [Option.map_some, f.dependencies_unplaced, foldl_reach_unplaced ih,
              any_name_unplaced]
            split
            · rfl
            · rw [List.map_append, List.map_singleton]

theorem reachable_unplaced (c : Collection) (names : List String) :
    c.unplaced.reachable names = (c.reachable names).map Fragment.unplaced := by
  unfold reachable
  rw [show c.unplaced.fragments.length = c.fragments.length from List.length_map _,
    show c.unplaced.imported.length = c.imported.length from List.length_map _]
  exact foldl_reach_unplaced (c.reach_unplaced _) names []

/-! ## Parts of a module -/

theorem spreads_unplaced (c : Collection) : c.unplaced.spreads = c.spreads := by
  unfold spreads
  rw [unplaced, List.flatMap_map, List.flatMap_map]
  simp only [Fragment.dependencies_unplaced, Operation.spreads_unplaced]

theorem referenced_unplaced (c : Collection) : c.unplaced.referenced = c.referenced := by
  have himported : c.unplaced.isImported = c.isImported := by
    funext n
    rw [isImported, isImported, unplaced, List.any_map, List.any_map]
    rfl
  rw [referenced, referenced, spreads_unplaced, himported]

theorem fragmentImports_unplaced (c : Collection) (n : Naming) :
    c.unplaced.fragmentImports n = c.fragmentImports n := by
  unfold fragmentImports
  simp only [referenced_unplaced]
  rw [unplaced, List.filter_map, List.map_map]
  rfl

theorem documentImports_unplaced (c : Collection) (sources : List Path) :
    c.unplaced.documentImports options sources = c.documentImports options sources := by
  have hempty : c.unplaced.isEmpty = c.isEmpty := by
    rw [isEmpty, unplaced, List.isEmpty_map, List.isEmpty_map, ← isEmpty]
  have hoperations : c.unplaced.hasOperations = c.hasOperations := by
    rw [hasOperations, unplaced, List.isEmpty_map, ← hasOperations]
  unfold documentImports
  simp only [hempty, hoperations, fragmentImports_unplaced]

end Collection

/-! ## Constants and functions -/

def DocumentValue.unplaced : DocumentValue → DocumentValue
  | .template tag definition references => .template tag definition.unplaced references
  | .complete definitions => .complete (definitions.map Definition.unplaced)
  | .spliced definition references => .spliced definition.unplaced references

def Constant.unplaced (k : Constant) : Constant := ⟨k.name, k.exported, k.value.unplaced⟩

def Module.unplaced (m : Module) : Module :=
  ⟨m.imports, m.constants.map Constant.unplaced, m.functions⟩

/-- A document is written as before, a tree of several definitions included. -/
theorem DocumentValue.render_unplaced (v : DocumentValue) : v.unplaced.render = v.render := by
  cases v with
  | template tag definition references =>
      rw [unplaced, render, render, definition.print_unplaced]
  | complete definitions =>
      have hnodes : Definition.toJson ∘ Definition.unplaced = Definition.toJson := by
        funext x
        exact x.toJson_unplaced
      rw [unplaced, render, render, List.map_map, hnodes]
  | spliced definition references =>
      show renderSpliced definition.unplaced references ++ _ =
        renderSpliced definition references ++ _
      unfold renderSpliced
      rw [definition.toJson_unplaced]

theorem Constant.render_unplaced (k : Constant) : k.unplaced.render = k.render := by
  rw [render, render, unplaced, k.value.render_unplaced]

theorem Module.output_unplaced (m : Module) : m.unplaced.output = m.output := by
  have hconstants : Constant.render ∘ Constant.unplaced = Constant.render := by
    funext k
    exact k.render_unplaced
  have hblocks : m.unplaced.blocks = m.blocks := by
    rw [blocks, blocks, unplaced, List.map_map, hconstants]
  rw [output, output, content, content, hblocks]
  rfl

namespace Collection

variable {options : Options}

theorem documentValue_unplaced (c : Collection) (x : Definition) (names : List String) :
    c.unplaced.documentValue options x.unplaced names =
      (c.documentValue options x names).unplaced := by
  unfold documentValue
  cases options.documentMode with
  | documentNode =>
      dsimp only
      rw [reachable_unplaced, DocumentValue.unplaced, List.map_cons, List.map_map, List.map_map]
      rfl
  | documentNodeImportFragments | string | graphQLTag | external => rfl

theorem fragmentConstant_unplaced (c : Collection) (f : Fragment) :
    c.unplaced.fragmentConstant options f.unplaced = (c.fragmentConstant options f).unplaced := by
  unfold fragmentConstant
  rw [f.dependencies_unplaced, Constant.unplaced, ← documentValue_unplaced]
  rfl

theorem operationConstant_unplaced (c : Collection) (o : Operation) :
    c.unplaced.operationConstant options o.unplaced =
      (c.operationConstant options o).unplaced := by
  unfold operationConstant
  rw [o.spreads_unplaced, Constant.unplaced, ← documentValue_unplaced]
  rfl

theorem constants_unplaced (c : Collection) :
    c.unplaced.constants options = (c.constants options).map Constant.unplaced := by
  unfold constants
  split
  · rw [List.map_append, List.map_map, List.map_map, unplaced, List.map_map, List.map_map,
      ← unplaced]
    congr 1
    · exact List.map_congr_left fun f _ => c.fragmentConstant_unplaced f
    · exact List.map_congr_left fun o _ => c.operationConstant_unplaced o
  · rfl

/-- The functions for an operation are written from its name, its kind and its variables. -/
theorem functionsOf_unplaced (o : Operation) :
    functionsOf options o.unplaced = functionsOf options o := rfl

theorem generate_unplaced (c : Collection) (sources : List Path) :
    c.unplaced.generate options sources =
      bimap Error.unplaced Module.unplaced (c.generate options sources) := by
  have himports : c.unplaced.documentImports options sources =
      bimap Error.unplaced id (c.documentImports options sources) := by
    rw [documentImports_unplaced]
    cases h : c.documentImports options sources with
    | ok is => rfl
    | error e =>
        -- what fails here is about options, and has no place in it
        rcases (documentImports_eq_error h).2 with rfl | ⟨n, rfl⟩
        · rfl
        · rfl
  have hbinds : c.unplaced.bindsFunctions options = c.bindsFunctions options := by
    rw [bindsFunctions, hasOperations, unplaced, List.isEmpty_map, ← hasOperations,
      ← bindsFunctions]
  have hfunctions : c.unplaced.operations.map (functionsOf options) =
      c.operations.map (functionsOf options) :=
    List.map_map.trans (List.map_congr_left fun o _ => functionsOf_unplaced o)
  unfold generate
  refine bind_eq_bimap himports fun is => ?_
  rw [hbinds, hfunctions, constants_unplaced]
  split
  · rfl
  · rfl

end Collection

/-! ## The whole run -/

theorem generate_unplaced (schema : Schema) (options : Options)
    (h : options.documentMode = .external → options.externalModule? ≠ some .besideDocument)
    (offered : List ImportedFragment) (ds : List Document) :
    generate schema options (offered.map ImportedFragment.unplaced) (ds.map Document.unplaced) =
      bimap Error.unplaced Module.unplaced (generate schema options offered ds) := by
  unfold generate
  refine bind_eq_bimap (Collection.ofDocuments_unplaced ds offered) fun c => ?_
  refine bind_eq_bimap (c.validate_unplaced schema) fun _ => ?_
  rw [← c.generate_unplaced]
  exact c.unplaced.generate_congr_sources _ _ h

/-- Documents that say the same, whatever files they come from and wherever in them the definitions
stand, have one output, or fail with one error but for the places in it. Only a module beside the
document depends on where that is. -/
theorem generate_eq_of_unplaced {ds ds' : List Document} {offered offered' : List ImportedFragment}
    (hds : ds.map Document.unplaced = ds'.map Document.unplaced)
    (hoffered : offered.map ImportedFragment.unplaced = offered'.map ImportedFragment.unplaced)
    (schema : Schema) (options : Options)
    (h : options.documentMode = .external → options.externalModule? ≠ some .besideDocument) :
    bimap Error.unplaced Module.output (generate schema options offered ds) =
      bimap Error.unplaced Module.output (generate schema options offered' ds') := by
  have houtput : ∀ (offered : List ImportedFragment) (ds : List Document),
      bimap Error.unplaced Module.output (generate schema options offered ds) =
        (generate schema options (offered.map ImportedFragment.unplaced)
          (ds.map Document.unplaced)).map Module.output := by
    intro offered ds
    rw [generate_unplaced schema options h]
    cases generate schema options offered ds with
    | error e => rfl
    | ok m => exact congrArg Except.ok m.output_unplaced.symm
  rw [houtput, houtput, hds, hoffered]

def tourSchema : Schema := ⟨⟨some "Query", none, none⟩, ["Query", "Stop"]⟩

/-- A query and the fragment it spreads in two files of a directory, from a line on; the fragment
selects from the given type. -/
def tourFiles (directory : String) (line : Nat) (condition : String) : List Document :=
  [⟨⟨directory ++ "/tour.graphql"⟩,
      [.operation ⟨⟨line, 1⟩, .query, some "Tour", [], [],
        [.field ⟨line + 1, 3⟩ none "stop" [] [] [.spread ⟨line + 1, 13⟩ "Stop" []]]⟩]⟩,
    ⟨⟨directory ++ "/stop.graphql"⟩,
      [.fragment ⟨⟨line, 1⟩, "Stop", condition, [], [.field ⟨line + 1, 3⟩ none "id" [] [] []]⟩]⟩]

/-- The tour in two places has one output. With a type that the schema has not, the errors differ in
the place that they name. -/
theorem generate_eq_of_unplaced_tour :
    (tourFiles "here" 1 "Stop").map Document.unplaced =
        (tourFiles "there" 5 "Stop").map Document.unplaced ∧
      (∃ m m', generate tourSchema (.ofMembers []) [] (tourFiles "here" 1 "Stop") = .ok m ∧
        generate tourSchema (.ofMembers []) [] (tourFiles "there" 5 "Stop") = .ok m' ∧
        m.output = m'.output) ∧
      generate tourSchema (.ofMembers []) [] (tourFiles "here" 1 "Halt") =
        .error (.unknownType "Halt" ⟨⟨"here/stop.graphql"⟩, ⟨1, 1⟩⟩) ∧
      generate tourSchema (.ofMembers []) [] (tourFiles "there" 5 "Halt") =
        .error (.unknownType "Halt" ⟨⟨"there/stop.graphql"⟩, ⟨5, 1⟩⟩) := by
  have hsame : (tourFiles "here" 1 "Stop").map Document.unplaced =
      (tourFiles "there" 5 "Stop").map Document.unplaced := rfl
  refine ⟨hsame, ?_, ?_, ?_⟩
  · have hbimap := generate_eq_of_unplaced hsame (rfl : List.map _ [] = List.map _ []) tourSchema
      (.ofMembers []) (by decide +kernel)
    obtain ⟨m, hm⟩ : ∃ m, generate tourSchema (.ofMembers []) [] (tourFiles "here" 1 "Stop") =
        .ok m := by
      rw [generate_of_valid rfl rfl]
      exact Collection.exists_generate (by decide +kernel)
    rw [hm] at hbimap
    cases hm' : generate tourSchema (.ofMembers []) [] (tourFiles "there" 5 "Stop") with
    | ok m' =>
        rw [hm'] at hbimap
        exact ⟨m, m', hm, rfl, Except.ok.inj hbimap⟩
    | error e =>
        rw [hm'] at hbimap
        cases hbimap
  · cbv
  · cbv

end Composables
