import Composables.Proofs.Module.Closed
import Composables.Proofs.Module.FragmentLines

/-
  The lines in front of a module, as they are written. First come those for its constants: the tag
  or the type of trees, all constants of another module, or the constants of fragments. Then come
  those of a client library. Each is there exactly if something in the module needs it, and none
  comes twice (`prepend_exact`).
-/

namespace Composables

/-! ## Texts of lines -/

namespace Import

def tagLine : ImportSpec → String
  | ⟨module, none⟩ => "import gql from '" ++ module ++ "';"
  | ⟨module, some "gql"⟩ => "import \x7b gql \x7d from '" ++ module ++ "';"
  | ⟨module, some name⟩ => "import \x7b " ++ name ++ " as gql \x7d from '" ++ module ++ "';"

def treeLine : ImportSpec → String
  | ⟨module, none⟩ => "import type \x7b DocumentNode \x7d from '" ++ module ++ "';"
  | ⟨module, some "DocumentNode"⟩ => "import type \x7b DocumentNode \x7d from '" ++ module ++ "';"
  | ⟨module, some name⟩ =>
    "import type \x7b " ++ name ++ " as DocumentNode \x7d from '" ++ module ++ "';"

def operationsLine (module : String) : String := "import * as Operations from '" ++ module ++ "';"

/-- The line for some constants of a module. -/
def constantsLine (line : String × List String) : String :=
  "import \x7b " ++ ", ".intercalate line.2 ++ " \x7d from '" ++ line.1 ++ "';"

theorem importFrom_eq {what module front : String} (h : what ++ " from '" = front) :
    importFrom what module = front ++ module ++ "';" := by
  rw [importFrom, h]

/-- A name that is exported under another one stands in front of that one. -/
theorem importFrom_binding {front name e module back : String} (he : e ≠ name)
    (h : " as " ++ (name ++ (" \x7d" ++ " from '")) = back) :
    importFrom (front ++ binding name e ++ " \x7d") module =
      front ++ e ++ back ++ module ++ "';" := by
  refine importFrom_eq ?_
  rw [binding, if_neg he, ← h]
  simp only [String.append_assoc]

theorem render_tag (spec : ImportSpec) : (tag spec).render = tagLine spec := by
  unfold tagLine
  split
  · exact importFrom_eq (by decide +kernel)
  · exact importFrom_eq (by decide +kernel)
  · rename_i name hname
    exact importFrom_binding hname (by decide +kernel)

theorem render_documentNode (spec : ImportSpec) : (documentNode spec).render = treeLine spec := by
  unfold treeLine
  split
  · exact importFrom_eq (by decide +kernel)
  · exact importFrom_eq (by decide +kernel)
  · rename_i name hname
    exact importFrom_binding hname (by decide +kernel)

theorem render_operations (module : String) : (operations module).render = operationsLine module :=
  importFrom_eq (by decide +kernel)

theorem render_fragments (line : String × List String) :
    (fragments line.1 line.2).render = constantsLine line := by
  have hclose : " \x7d" ++ " from '" = " \x7d from '" := by decide +kernel
  refine importFrom_eq ?_
  rw [String.append_assoc, hclose]

end Import

/-- The lines of a client library. -/
def Client.lines (client : Client) (options : Options) : List String :=
  match client with
  | .apollo =>
    ["import * as VueApolloComposable from '" ++ options.apolloModule ++ "';",
      "import * as VueCompositionApi from '" ++ options.compositionModule ++ "';",
      "export type ReactiveFunction<TParam> = () => TParam;"]
  | .urql =>
    ["import * as Urql from '" ++ options.urqlModule ++ "';",
      "export type Omit<T, K extends keyof T> = Pick<T, Exclude<keyof T, K>>;"]

theorem Client.map_render_imports (client : Client) (options : Options) :
    (client.imports options).map Import.render = client.lines options := by
  have hlibrary : ∀ {name module front : String}, "import * as " ++ name ++ " from '" = front →
      (Import.library name module).render = front ++ module ++ "';" := fun h =>
    Import.importFrom_eq h
  cases client with
  | apollo =>
      have hapollo : "import * as " ++ "VueApolloComposable" ++ " from '" =
        "import * as VueApolloComposable from '" := by decide +kernel
      have hcomposition : "import * as " ++ "VueCompositionApi" ++ " from '" =
        "import * as VueCompositionApi from '" := by decide +kernel
      simp only [Client.imports, Apollo.imports, List.map_cons, List.map_nil, hlibrary hapollo,
        hlibrary hcomposition]
      rfl
  | urql =>
      have hurql : "import * as " ++ "Urql" ++ " from '" = "import * as Urql from '" := by
        decide +kernel
      simp only [Client.imports, Urql.imports, List.map_cons, List.map_nil, hlibrary hurql]
      rfl

/-! ## The lines of a module -/

instance (m : Module) : Decidable m.HasFunction := inferInstanceAs (Decidable (∃ _, _ ∧ ∃ _, _))

namespace Collection

variable {c : Collection} {options : Options} {sources : List Path} {ds : List Document}
  {offered : List ImportedFragment} {is : List Import} {m : Module}

/-- The module of constants declared elsewhere, if operations take theirs from there. -/
def operationsModule? (c : Collection) (options : Options) (sources : List Path) : Option String :=
  if options.documentMode = .external ∧ c.hasOperations then
    (externalModule options sources).toOption
  else none

/-- The lines for the constants of a module, given those of fragments. -/
def constantLines (c : Collection) (options : Options) (sources : List Path) (m : Module)
    (bound : List (String × List String)) : List String :=
  (if ∃ k ∈ m.constants, k.value.isTagged then [Import.tagLine options.tagImport] else []) ++
  (if ∃ k ∈ m.constants, k.value.isTree then [Import.treeLine options.documentNodeImport]
    else []) ++
  (c.operationsModule? options sources).toList.map Import.operationsLine ++
  bound.map Import.constantsLine

/-- The lines in front of a module. -/
def frontLines (c : Collection) (options : Options) (sources : List Path) (m : Module)
    (bound : List (String × List String)) : List String :=
  c.constantLines options sources m bound ++
    if m.HasFunction then options.client.lines options else []

theorem map_render_fragmentImports (c : Collection) (n : Naming) :
    (c.fragmentImports n).map Import.render =
      (fragmentLines (c.fragmentImports n)).map Import.constantsLine := by
  have hall : ∀ is : List Import, (∀ i ∈ is, ∃ module constants, i = .fragments module constants) →
      is.map Import.render = (fragmentLines is).map Import.constantsLine := by
    intro is his
    induction is with
    | nil => rfl
    | cons i is ih =>
        rw [List.forall_mem_cons] at his
        obtain ⟨⟨module, constants, rfl⟩, his⟩ := his
        rw [List.map_cons, ih his, Import.render_fragments (module, constants)]
        rfl
  exact hall _ fun i hi => eq_fragments_of_mem hi

theorem map_render_documentImports (h : c.documentImports options sources = .ok is)
    (hm : c.Makes options is m) :
    is.map Import.render = c.constantLines options sources m (fragmentLines is) := by
  have hfragments := c.map_render_fragmentImports options.naming
  -- what stands in front of the imports of fragments is there if there is something to declare
  have hdeclared : ∀ {i : Import} {line : String}, i.render = line → i.fragmentLine? = none →
      (if c.isEmpty then [] else [i]).map Import.render =
        (if c.isEmpty = false then [line] else []) ∧
      fragmentLines (if c.isEmpty then [] else [i]) = [] := by
    rintro i _ rfl hi
    cases c.isEmpty <;> simp [fragmentLines, hi]
  have htag := hdeclared (Import.render_tag options.tagImport) rfl
  have htree := hdeclared (Import.render_documentNode options.documentNodeImport) rfl
  simp only [constantLines, hm.exists_isTagged, hm.exists_isTree]
  rcases documentImports_cases h with ⟨hmode, rfl⟩ | ⟨hmode, rfl⟩ | ⟨hmode, rfl⟩ | ⟨hmode, rfl⟩ |
    ⟨hmode, hoperations, module, hmodule, rfl⟩ | ⟨hmode, hoperations, rfl⟩
  · simp [hmode, operationsModule?, fragmentLines_append, htag, hfragments]
  · simp [hmode, operationsModule?, htree]
  · simp [hmode, operationsModule?, fragmentLines_append, htree, hfragments]
  · simp [hmode, operationsModule?, hfragments]
  · simp [hmode, operationsModule?, hoperations, hmodule, Except.toOption, fragmentLines,
      Import.fragmentLine?, Import.render_operations]
  · simp [hmode, operationsModule?, hoperations, fragmentLines]

theorem fragmentLines_imports (h : c.Makes options is m) :
    fragmentLines m.imports = fragmentLines is := by
  have hclient : fragmentLines (options.client.imports options) = [] := by
    refine List.filterMap_eq_nil_iff.mpr fun i hi => ?_
    have hkind := Client.isClient_of_mem hi
    cases i <;> simp_all [Import.isClient, Import.fragmentLine?]
  rw [h.imports, fragmentLines_append]
  split
  · rw [hclient, List.append_nil]
  · exact List.append_nil _

/-- The lines in front of a module are those that its constants and functions need. In the modes
that refer to constants, the lines of fragments bind what is spread and not declared; in the others
there is none of them. -/
theorem prepend_exact (hc : ofDocuments ds offered = .ok c)
    (hm : c.generate options sources = .ok m) :
    m.prepend = Distinct.ofList (c.frontLines options sources m (fragmentLines m.imports)) ∧
      (options.documentMode ∈ [.graphQLTag, .string, .documentNodeImportFragments] →
        c.BoundBy options.naming (fragmentLines m.imports)) ∧
      (options.documentMode ∈ [.documentNode, .external] → fragmentLines m.imports = []) := by
  obtain ⟨is, his, hmakes⟩ := makes_of_generate hm
  rw [fragmentLines_imports hmakes]
  refine ⟨?_, boundBy_documentImports (ofDocuments_eq_ok.mp hc) his, fragmentLines_eq_nil his⟩
  have hclient : (if c.bindsFunctions options then options.client.imports options else []).map
      Import.render = if m.HasFunction then options.client.lines options else [] := by
    simp only [hmakes.hasFunction_iff]
    split
    · exact options.client.map_render_imports options
    · rfl
  rw [Module.prepend, hmakes.imports, List.map_append, map_render_documentImports his hmakes,
    hclient, frontLines]

example : (collectedPage.generate (.ofMembers []) [page.location]).toOption.map Module.prepend =
    some ["import gql from 'graphql-tag';", "import \x7b LinkFragmentDoc \x7d from './link';",
      "import * as VueApolloComposable from '@vue/apollo-composable';",
      "import * as VueCompositionApi from 'vue';",
      "export type ReactiveFunction<TParam> = () => TParam;"] := by
  decide +kernel

/-- Which lines stand in front of a module. -/
theorem mem_prepend_iff (hc : ofDocuments ds offered = .ok c)
    (hm : c.generate options sources = .ok m) {line : String} :
    line ∈ m.prepend ↔
      (line = Import.tagLine options.tagImport ∧ ∃ k ∈ m.constants, k.value.isTagged) ∨
      (line = Import.treeLine options.documentNodeImport ∧ ∃ k ∈ m.constants, k.value.isTree) ∨
      (∃ module ∈ c.operationsModule? options sources, line = Import.operationsLine module) ∨
      (∃ bound ∈ fragmentLines m.imports, line = Import.constantsLine bound) ∨
      (line ∈ options.client.lines options ∧ m.HasFunction) := by
  have hguard : ∀ {p : Prop} [Decidable p] {lines : List String},
      line ∈ (if p then lines else []) ↔ line ∈ lines ∧ p := by
    intro p _ lines
    split <;> simp_all
  rw [(prepend_exact hc hm).1, Distinct.mem_ofList, frontLines, constantLines]
  simp only [List.mem_append, hguard, List.mem_singleton, List.mem_map, Option.mem_toList,
    Option.mem_def, eq_comm (b := line), or_assoc]

end Collection

end Composables
