import Composables.Proofs.Collection.Reachable
import Composables.Proofs.Graphql.Bare
import Composables.Proofs.Module.Generate

/-
  What stands in front of a block. A generated module declares or imports each constant before a
  block uses it, and it imports what its blocks use, no more (`closed_of_generate`).
-/

namespace Composables

open Graphql (Definition)

/-! ## Blocks before they are written -/

inductive Block where
  | constant (c : Constant)
  /-- The functions for one operation. -/
  | functions (parts : List Part)

def Block.render : Block → String
  | .constant c => c.render
  | .functions parts => Module.renderParts parts

/-- One of the blocks declares a constant. -/
def Declares (front : List Block) (name : String) : Prop :=
  ∃ k, Block.constant k ∈ front ∧ k.name = name

namespace DocumentValue

/-- Whether a value is a template under the tag `gql`. -/
def isTagged : DocumentValue → Bool
  | .template .gql _ _ => true
  | .template .pureGql _ _ => true
  | _ => false

/-- Whether a value has the type of document trees. -/
def isTree : DocumentValue → Bool
  | .complete _ => true
  | .spliced _ _ => true
  | .template _ _ _ => false

end DocumentValue

namespace Module

variable {m : Module} {i : Import}

/-- The blocks in their order. -/
def items (m : Module) : List Block := m.constants.map .constant ++ m.functions.map .functions

theorem blocks_eq (m : Module) : m.blocks = m.items.map Block.render := by
  rw [items, List.map_append, List.map_map, List.map_map]
  rfl

/-- A line in front of the blocks imports a constant of another module. -/
def Imports (m : Module) (constant : String) : Prop :=
  ∃ module constants, Import.fragments module constants ∈ m.imports ∧
    (Import.fragments module constants).render ∈ m.prepend ∧ constant ∈ constants

/-- A line in front of the blocks imports all constants of another module under the name
`Operations`. -/
def ImportsOperations (m : Module) : Prop :=
  ∃ module, Import.operations module ∈ m.imports ∧ (Import.operations module).render ∈ m.prepend

/-- Some block has a function. -/
def HasFunction (m : Module) : Prop := ∃ parts ∈ m.functions, ∃ p ∈ parts, p.functionName?.isSome

theorem mem_prepend {line : String} : line ∈ m.prepend ↔ ∃ i ∈ m.imports, i.render = line := by
  rw [prepend, Distinct.mem_ofList, List.mem_map]

theorem render_mem_prepend (h : i ∈ m.imports) : i.render ∈ m.prepend := mem_prepend.mpr ⟨i, h, rfl⟩

/-- What a block needs in front of it: the constants that it refers to, in the module or imported,
and for functions the document of their operation. -/
def Meets (m : Module) (c : Collection) (options : Options) (front : List Block) : Block → Prop
  | .constant k => ∀ r ∈ k.value.references, Declares front r ∨ m.Imports r
  | .functions parts => ∃ o ∈ c.operations, ∃ document,
      parts = options.client.functions options (.ofOperation options.naming o document) ∧
      ((options.documentMode.isInline = true ∧ document = options.naming.documentConstant o.name ∧
          Declares front document) ∨
        (options.documentMode = .external ∧
          document = "Operations." ++ options.naming.documentConstant o.name ∧
          m.ImportsOperations))

/-- Each block of a module has what it needs in front of it, and the module imports what its blocks
need. -/
structure Closed (m : Module) (c : Collection) (options : Options) : Prop where
  supplied : Supplied (m.Meets c options) m.items
  alone : options.documentMode = .documentNode → ∀ k ∈ m.constants, k.value.references = []
  tag : ∀ spec, .tag spec ∈ m.imports ↔
    spec = options.tagImport ∧ ∃ k ∈ m.constants, k.value.isTagged
  documentNode : ∀ spec, .documentNode spec ∈ m.imports ↔
    spec = options.documentNodeImport ∧ ∃ k ∈ m.constants, k.value.isTree
  client : ∀ i : Import, i.isClient →
    (i ∈ m.imports ↔ i ∈ options.client.imports options ∧ m.HasFunction)

end Module

/-! ## Functions -/

/-- The functions for an operation are never none. -/
theorem Client.exists_function (client : Client) (options : Options) (b : Binding) :
    ∃ p ∈ client.functions options b, p.functionName?.isSome := by
  cases client with
  | apollo =>
      have hfunctions : ∃ p ∈ Apollo.functions b, p.functionName?.isSome := by
        cases hkind : b.kind <;> simp [Apollo.functions, hkind, Apollo.reactiveFunction,
          Apollo.mutationFunction,
          Part.functionName?]
      obtain ⟨p, hp, hname⟩ := hfunctions
      refine ⟨p, ?_, hname⟩
      rw [Client.functions, Apollo.parts]
      exact List.mem_append_left _ (List.mem_append_right _ hp)
  | urql =>
      refine ⟨Urql.function b, List.mem_singleton.mpr rfl, ?_⟩
      cases hkind : b.kind <;> simp [Urql.function, hkind, Part.functionName?]

namespace Collection

variable {c : Collection} {options : Options} {sources : List Path} {is : List Import} {m : Module}

/-! ## Constants -/

/-- The constants that a value refers to are those of the fragments spread in it. -/
theorem mem_references {x : Definition} {spreads : List String} {r : String}
    (h : r ∈ (c.documentValue options x spreads).references) :
    options.documentMode ≠ .documentNode ∧
      ∃ s ∈ spreads, options.naming.fragmentConstant s = r := by
  unfold documentValue at h
  cases hmode : options.documentMode <;> simp [hmode, DocumentValue.references] at h ⊢ <;> exact h

theorem isTagged_documentValue (hinline : options.documentMode.isInline) {x : Definition}
    {spreads : List String} :
    (c.documentValue options x spreads).isTagged ↔ options.documentMode = .graphQLTag := by
  unfold documentValue
  cases hmode : options.documentMode with
  | external =>
      rw [hmode] at hinline
      cases hinline
  | graphQLTag => cases options.pureComment <;> simp [DocumentValue.isTagged]
  | documentNode | documentNodeImportFragments | string => simp [DocumentValue.isTagged]

theorem isTree_documentValue {x : Definition} {spreads : List String} :
    (c.documentValue options x spreads).isTree ↔
      options.documentMode = .documentNode ∨
        options.documentMode = .documentNodeImportFragments := by
  unfold documentValue
  cases options.documentMode <;> simp [DocumentValue.isTree]

/-- What depends on the mode alone holds of some constant if there is one. -/
theorem exists_constant {p : DocumentValue → Bool} {q : Prop}
    (hq : q → options.documentMode.isInline)
    (hp : options.documentMode.isInline → ∀ x spreads, p (c.documentValue options x spreads) ↔ q) :
    (∃ k ∈ c.constants options, p k.value) ↔ q ∧ c.isEmpty = false := by
  constructor
  · rintro ⟨k, hk, hpk⟩
    obtain ⟨hinline, ⟨f, hf, rfl⟩ | ⟨o, ho, rfl⟩⟩ := mem_constants hk
    · refine ⟨(hp hinline _ _).mp hpk, ?_⟩
      simp [isEmpty, List.ne_nil_of_mem hf]
    · refine ⟨(hp hinline _ _).mp hpk, ?_⟩
      simp [isEmpty, List.ne_nil_of_mem ho]
  · rintro ⟨hholds, hsome⟩
    rw [constants, if_pos (hq hholds)]
    rcases hoperations : c.operations with _ | ⟨o, os⟩
    · rcases hfragments : c.fragments with _ | ⟨f, fs⟩
      · simp [isEmpty, hoperations, hfragments] at hsome
      · exact ⟨c.fragmentConstant options f, by simp, (hp (hq hholds) _ _).mpr hholds⟩
    · exact ⟨c.operationConstant options o, by simp, (hp (hq hholds) _ _).mpr hholds⟩

/-! ## The module -/

theorem Makes.exists_isTagged (hm : c.Makes options is m) :
    (∃ k ∈ m.constants, k.value.isTagged) ↔
      options.documentMode = .graphQLTag ∧ c.isEmpty = false := by
  have hinline : options.documentMode = .graphQLTag → options.documentMode.isInline := by
    intro h
    rw [h]
    rfl
  rw [hm.constants, exists_constant hinline fun hinline _ _ => isTagged_documentValue hinline]

theorem Makes.exists_isTree (hm : c.Makes options is m) :
    (∃ k ∈ m.constants, k.value.isTree) ↔
      (options.documentMode = .documentNode ∨
        options.documentMode = .documentNodeImportFragments) ∧ c.isEmpty = false := by
  have hinline : options.documentMode = .documentNode ∨
      options.documentMode = .documentNodeImportFragments → options.documentMode.isInline := by
    rintro (h | h) <;> rw [h] <;> rfl
  rw [hm.constants, exists_constant hinline fun _ _ _ => isTree_documentValue]

/-- Some block has a function where functions are to be written and there is an operation. -/
theorem Makes.hasFunction_iff (hm : c.Makes options is m) :
    m.HasFunction ↔ c.bindsFunctions options := by
  unfold Module.HasFunction
  cases hbinds : c.bindsFunctions options with
  | true =>
      rw [hm.functions, hbinds, if_pos rfl]
      refine iff_of_true ?_ rfl
      rw [bindsFunctions, hasOperations] at hbinds
      cases hoperations : c.operations with
      | nil => simp [hoperations] at hbinds
      | cons o os =>
          exact ⟨functionsOf options o, List.mem_cons_self, options.client.exists_function _ _⟩
  | false =>
      rw [hm.functions, hbinds, if_neg Bool.false_ne_true]
      simp

variable {ds : List Document} {offered : List ImportedFragment}

/-- An imported fragment that is spread has its constant in the imports. -/
theorem imports_of_spread (h : Collects ds offered c)
    (himports : c.fragmentImports options.naming ⊆ m.imports) {s : String}
    (hspread : s ∈ c.spreads) (himported : s ∈ c.imported.map ImportedFragment.name) :
    m.Imports (options.naming.fragmentConstant s) := by
  have hreferenced := mem_referenced.mpr ⟨hspread, h.isImported himported⟩
  obtain ⟨e, he, rfl⟩ := List.mem_map.mp himported
  obtain ⟨constants, hmem, hconstant⟩ := fragmentImports_constants.mpr
    ⟨e, he, hreferenced, rfl, (rfl : options.naming.fragmentConstant e.name = _)⟩
  exact ⟨e.module, constants, himports hmem, Module.render_mem_prepend (himports hmem), hconstant⟩

/-- A constant has what it needs if each name that its definition spreads is declared in front of it
or stands for an imported fragment. -/
theorem meets_constant (h : Collects ds offered c) {front : List Block} {k : Constant}
    {x : Definition} {spreads : List String} (hk : k.value = c.documentValue options x spreads)
    (himports : options.documentMode ≠ .documentNode → c.fragmentImports options.naming ⊆ m.imports)
    (hspreads : ∀ s ∈ spreads, s ∈ c.spreads ∧
      (Declares front (options.naming.fragmentConstant s) ∨
        s ∈ c.imported.map ImportedFragment.name)) :
    m.Meets c options front (.constant k) := by
  intro r hr
  rw [hk] at hr
  obtain ⟨hmode, s, hs, rfl⟩ := mem_references hr
  obtain ⟨hspread, hdeclared⟩ := hspreads s hs
  exact hdeclared.imp_right fun himported => imports_of_spread h (himports hmode) hspread himported

/-- The constants of fragments are declared behind those they refer to. -/
theorem supplied_fragments (h : Collects ds offered c)
    (himports : options.documentMode ≠ .documentNode →
      c.fragmentImports options.naming ⊆ m.imports) :
    Supplied (m.Meets c options)
      (c.fragments.map fun f => .constant (c.fragmentConstant options f)) := by
  rw [supplied_map]
  refine h.arranged.imp fun front f hf hfront => meets_constant h rfl himports fun d hd => ⟨?_, ?_⟩
  · rw [spreads, List.mem_append]
    exact .inl (List.mem_flatMap.mpr ⟨f, hf, hd⟩)
  · refine (hfront d hd).imp_left fun hmem => ?_
    obtain ⟨g, hg, rfl⟩ := List.mem_map.mp hmem
    exact ⟨c.fragmentConstant options g, List.mem_map_of_mem hg, rfl⟩

/-- The constants of operations are declared behind those of all fragments. -/
theorem supplied_operations (h : Collects ds offered c)
    (himports : options.documentMode ≠ .documentNode →
      c.fragmentImports options.naming ⊆ m.imports) :
    Supplied (fun front => m.Meets c options
        ((c.fragments.map fun f => .constant (c.fragmentConstant options f)) ++ front))
      (c.operations.map fun o => .constant (c.operationConstant options o)) := by
  refine supplied_of_forall fun front b hb => ?_
  obtain ⟨o, ho, rfl⟩ := List.mem_map.mp hb
  refine meets_constant h rfl himports fun s hs => ⟨?_, ?_⟩
  · rw [spreads, List.mem_append]
    exact .inr (List.mem_flatMap.mpr ⟨o, ho, hs⟩)
  · refine (h.spreads_known ho hs).imp_left fun hmem => ?_
    obtain ⟨g, hg, rfl⟩ := List.mem_map.mp hmem
    exact ⟨c.fragmentConstant options g, List.mem_append_left _ (List.mem_map_of_mem hg), rfl⟩

/-- The functions for operations have the documents of these in front of them. -/
theorem supplied_functions
    (himports : options.documentMode = .external → c.hasOperations → m.ImportsOperations) :
    Supplied (fun front => m.Meets c options ((c.constants options).map Block.constant ++ front))
      ((c.operations.map (functionsOf options)).map Block.functions) := by
  refine supplied_of_forall fun front b hb => ?_
  rw [List.map_map] at hb
  obtain ⟨o, ho, rfl⟩ := List.mem_map.mp hb
  refine ⟨o, ho, documentReference options o, rfl, ?_⟩
  unfold documentReference
  by_cases hinline : options.documentMode.isInline
  · rw [if_pos hinline]
    have hk := mem_constants_of_operation hinline ho
    exact .inl ⟨hinline, rfl, _, List.mem_append_left _ (List.mem_map_of_mem hk), rfl⟩
  · rw [if_neg hinline]
    have hmode : options.documentMode = .external := by simpa [DocumentMode.isInline] using hinline
    refine .inr ⟨hmode, rfl, himports hmode ?_⟩
    simp [hasOperations, List.ne_nil_of_mem ho]

/-- All blocks of a module have what they need if the imports name it. -/
theorem Makes.supplied (hm : c.Makes options is m) (h : Collects ds offered c)
    (hfragments : options.documentMode.isInline → options.documentMode ≠ .documentNode →
      c.fragmentImports options.naming ⊆ m.imports)
    (hoperations : options.documentMode = .external → c.hasOperations → m.ImportsOperations) :
    Supplied (m.Meets c options) m.items := by
  rw [Module.items, hm.constants, hm.functions]
  refine supplied_append.mpr ⟨?_, ?_⟩
  · by_cases hinline : options.documentMode.isInline
    · rw [Collection.constants, if_pos hinline, List.map_append, List.map_map, List.map_map]
      exact supplied_append.mpr
        ⟨supplied_fragments h (hfragments hinline), supplied_operations h (hfragments hinline)⟩
    · rw [Collection.constants, if_neg hinline]
      exact supplied_nil
  · split
    · exact supplied_functions hoperations
    · exact supplied_nil

/-- A query that spreads a fragment of its own document, and both spread one of another module. -/
def page : Document :=
  ⟨⟨"page.graphql"⟩, [.operation (.bare "Page" ["Header", "Link"]),
    .fragment (.bare "Header" ["Link"])]⟩

def link : ImportedFragment := ⟨⟨⟨"link.graphql"⟩, .bare "Link" []⟩, "./link"⟩

def collectedPage : Collection where
  operations := [⟨⟨"page.graphql"⟩, "Page", .bare "Page" ["Header", "Link"]⟩]
  fragments := [⟨⟨"page.graphql"⟩, .bare "Header" ["Link"]⟩]
  imported := [link]

end Collection

end Composables
