import Composables.Proofs.Collection.Reachable
import Composables.Proofs.Graphql.Bare
import Composables.Proofs.Module.Generate

/-
  Constants that hold whole trees. In the mode of document nodes a constant lists its own definition
  and behind it each fragment reached by spreads, once and in order, so that whatever its
  definitions spread is defined in it (`documentNode_constants`). The module has the tree of this
  list as the text of the declaration (`documentNode_blocks`).
-/

namespace Composables

open Graphql (Definition Selection walkAll)
open Relation (ReflTransGen)

/-- Each fragment spread in one of the definitions, at any depth, is defined by one of them. -/
def Graphql.SelfContained (definitions : List Definition) : Prop :=
  ∀ x ∈ definitions, ∀ s ∈ (walkAll x.selections).filterMap Selection.spreadName?,
    ∃ d, .fragment d ∈ definitions ∧ d.name = s

/-- The definitions of fragments. -/
def Fragment.definitions (fs : List Fragment) : List Definition :=
  fs.map fun f => .fragment f.definition

namespace Collection

variable {c : Collection} {fs : List Fragment} {ns : List String} {ds : List Document}
  {offered : List ImportedFragment} {options : Options}

/-- The fragments of a collection resolve if those that are imported do. -/
theorem resolves_of_imported (h : Collects ds offered c)
    (himported : ∀ e ∈ c.imported, ∀ d ∈ e.fragment.dependencies, (c.fragment? d).isSome) :
    c.Resolves := by
  rintro a b ⟨f, hf, hb⟩
  rcases mem_of_fragment? hf with hf | ⟨e, he, rfl⟩
  · exact fragment?_isSome.mpr (h.arranged.mem hf hb)
  · exact himported e he b hb

/-- Of fragments that spread nothing but each other, and a definition that spreads nothing but them,
all that is spread is defined. -/
theorem Lists.selfContained {x : Definition} (h : c.Lists ns fs)
    (hx : ∀ s ∈ Graphql.spreads x.selections, s ∈ ns) (hns : ∀ n ∈ ns, n ∈ fs.map Fragment.name) :
    Graphql.SelfContained (x :: Fragment.definitions fs) := by
  have hdefined : ∀ s ∈ fs.map Fragment.name,
      ∃ d, Definition.fragment d ∈ x :: Fragment.definitions fs ∧ d.name = s := by
    intro s hs
    obtain ⟨f, hf, rfl⟩ := List.mem_map.mp hs
    exact ⟨f.definition, List.mem_cons_of_mem _ (List.mem_map_of_mem hf), rfl⟩
  intro y hy s hs
  rw [← Distinct.mem_ofList] at hs
  rcases List.mem_cons.mp hy with rfl | hy
  · exact hdefined s (hns s (hx s hs))
  · obtain ⟨f, hf, rfl⟩ := List.mem_map.mp hy
    exact hdefined s ((h.arranged.mem hf hs).resolve_right List.not_mem_nil)

/-- Names that stand for fragments are among the fragments they reach. -/
theorem Lists.mem_names (h : c.Lists ns fs) (hns : ∀ n ∈ ns, (c.fragment? n).isSome) :
    ∀ n ∈ ns, n ∈ fs.map Fragment.name := by
  intro n hn
  obtain ⟨f, hf⟩ := Option.isSome_iff_exists.mp (hns n hn)
  obtain rfl := name_of_fragment? hf
  exact List.mem_map_of_mem ((h.mem_iff f).mpr ⟨hf, f.name, hn, .refl⟩)

/-- A fragment is not among those it reaches. -/
theorem Lists.not_mem_self {f : Fragment} (h : c.Lists f.dependencies fs)
    (hacyclic : Acyclic c.Spreads) (hf : c.fragment? f.name = some f) :
    f.name ∉ fs.map Fragment.name := by
  intro hm
  obtain ⟨g, hg, hname⟩ := List.mem_map.mp hm
  obtain ⟨_, d, hd, hreach⟩ := (h.mem_iff g).mp hg
  rw [hname] at hreach
  exact hacyclic f.name (.head' ⟨f, hf, hd⟩ hreach)

/-! ## What constants list -/

theorem lists_operation (h : Collects ds offered c) (hacyclic : Acyclic c.Spreads)
    (himported : ∀ e ∈ c.imported, ∀ d ∈ e.fragment.dependencies, (c.fragment? d).isSome)
    {o : Operation} (ho : o ∈ c.operations) :
    c.Lists o.spreads (c.reachable o.spreads) ∧ Graphql.SelfContained
      (.operation o.definition :: Fragment.definitions (c.reachable o.spreads)) := by
  have hknown : ∀ s ∈ o.spreads, (c.fragment? s).isSome := fun s hs =>
    fragment?_isSome.mpr (h.spreads_known ho hs)
  have hlists := lists_reachable hacyclic (resolves_of_imported h himported) hknown
  exact ⟨hlists, hlists.selfContained (fun _ hs => hs) (hlists.mem_names hknown)⟩

theorem lists_fragment (h : Collects ds offered c) (hacyclic : Acyclic c.Spreads)
    (himported : ∀ e ∈ c.imported, ∀ d ∈ e.fragment.dependencies, (c.fragment? d).isSome)
    {f : Fragment} (hf : f ∈ c.fragments) :
    c.Lists f.dependencies (c.reachable f.dependencies) ∧
      f.name ∉ (c.reachable f.dependencies).map Fragment.name ∧ Graphql.SelfContained
        (.fragment f.definition :: Fragment.definitions (c.reachable f.dependencies)) := by
  have hresolves := resolves_of_imported h himported
  have hself := fragment?_of_mem h.nodup_fragments hf
  have hknown : ∀ d ∈ f.dependencies, (c.fragment? d).isSome := fun d hd =>
    hresolves f.name d ⟨f, hself, hd⟩
  have hlists := lists_reachable hacyclic hresolves hknown
  exact ⟨hlists, hlists.not_mem_self hacyclic hself,
    hlists.selfContained (fun _ hs => hs) (hlists.mem_names hknown)⟩

theorem documentValue_complete (hmode : options.documentMode = .documentNode) (x : Definition)
    (ns : List String) :
    c.documentValue options x ns = .complete (x :: Fragment.definitions (c.reachable ns)) := by
  simp only [documentValue, hmode, Fragment.definitions]

/-- In the mode of document nodes, each constant holds its own definition and then, each once and
behind those it spreads, the fragments that are reached from there. Its own definition does not come
again, and nothing that is spread in it is missing. -/
theorem documentNode_constants (hc : Collection.ofDocuments ds offered = .ok c)
    (hmode : options.documentMode = .documentNode) (hacyclic : Acyclic c.Spreads)
    (himported : ∀ e ∈ c.imported, ∀ d ∈ e.fragment.dependencies, (c.fragment? d).isSome) :
    (∀ o ∈ c.operations, ∃ fs, (c.operationConstant options o).value =
        .complete (.operation o.definition :: Fragment.definitions fs) ∧ c.Lists o.spreads fs ∧
      Graphql.SelfContained (.operation o.definition :: Fragment.definitions fs)) ∧
    ∀ f ∈ c.fragments, ∃ fs, (c.fragmentConstant options f).value =
        .complete (.fragment f.definition :: Fragment.definitions fs) ∧ c.Lists f.dependencies fs ∧
      f.name ∉ fs.map Fragment.name ∧
      Graphql.SelfContained (.fragment f.definition :: Fragment.definitions fs) := by
  have hcollects := ofDocuments_eq_ok.mp hc
  constructor
  · intro o ho
    obtain ⟨hlists, hself⟩ := lists_operation hcollects hacyclic himported ho
    exact ⟨_, documentValue_complete hmode _ _, hlists, hself⟩
  · intro f hf
    obtain ⟨hlists, hnew, hself⟩ := lists_fragment hcollects hacyclic himported hf
    exact ⟨_, documentValue_complete hmode _ _, hlists, hnew, hself⟩

/-- A query that reaches one fragment in two ways, one of them through a fragment of another
module. -/
def diamond : Document :=
  ⟨⟨"feed.graphql"⟩, [.operation (.bare "Feed" ["Left", "Right"]),
    .fragment (.bare "Left" ["Base"]),
    .fragment (.bare "Base" [])]⟩

def right : ImportedFragment := ⟨⟨⟨"right.graphql"⟩, .bare "Right" ["Base"]⟩, "./right"⟩

def collectedDiamond : Collection where
  operations := [⟨⟨"feed.graphql"⟩, "Feed", .bare "Feed" ["Left", "Right"]⟩]
  fragments := [⟨⟨"feed.graphql"⟩, .bare "Base" []⟩, ⟨⟨"feed.graphql"⟩, .bare "Left" ["Base"]⟩]
  imported := [right]

theorem documentNode_constants_diamond :
    Collection.ofDocuments [diamond] [right] = .ok collectedDiamond ∧
      Acyclic collectedDiamond.Spreads ∧
      ∀ o ∈ collectedDiamond.operations, ∃ fs,
        (collectedDiamond.operationConstant (.ofMembers [("documentMode", .string "documentNode")])
          o).value =
          .complete (.operation o.definition :: Fragment.definitions fs) ∧
        collectedDiamond.Lists o.spreads fs ∧
        Graphql.SelfContained (.operation o.definition :: Fragment.definitions fs) := by
  have hc : Collection.ofDocuments [diamond] [right] = .ok collectedDiamond := by cbv
  have hacyclic : Acyclic collectedDiamond.Spreads :=
    acyclic_of_rank (fun n => ["Base", "Left", "Right"].idxOf n) (by decide +kernel)
  have himported : ∀ e ∈ collectedDiamond.imported, ∀ d ∈ e.fragment.dependencies,
      (collectedDiamond.fragment? d).isSome := by decide +kernel
  exact ⟨hc, hacyclic, (documentNode_constants hc (by decide +kernel) hacyclic himported).1⟩

/-! ## Their text -/

/-- A block of a module declares a constant with the tree of some definitions. -/
structure DeclaresTree (m : Module) (options : Options) (k : Constant)
    (definitions : List Definition) : Prop where
  block : k.render ∈ m.blocks
  text : k.render = (if options.noExport then "" else "export ") ++ "const " ++ k.name ++ " = " ++
    (Graphql.documentNode (definitions.map Definition.toJson)).compact ++
    " as unknown as DocumentNode" ++ ";"
  tree : (Graphql.documentNode (definitions.map Definition.toJson)).compact =
    Graphql.documentText (definitions.map fun x => x.toJson.compact)

theorem declaresTree {sources : List Path} {m : Module} {k : Constant}
    {definitions : List Definition} (hm : c.generate options sources = .ok m)
    (hk : k ∈ c.constants options) (hvalue : k.value = .complete definitions)
    (hsome : definitions ≠ []) : DeclaresTree m options k definitions := by
  obtain ⟨_, _, hmakes⟩ := makes_of_generate hm
  constructor
  case block => exact Module.render_mem_blocks (hmakes.constants ▸ hk)
  case text =>
    rw [render_of_mem_constants hk, hvalue, DocumentValue.render, ← String.append_assoc]
  case tree =>
    rw [Graphql.compact_documentNode (by simpa using hsome), List.map_map]
    rfl

/-- In the mode of document nodes, the module declares each constant with the tree of its own
definition and of the fragments that are reached from there. -/
theorem documentNode_blocks {sources : List Path} {m : Module}
    (hc : Collection.ofDocuments ds offered = .ok c)
    (hmode : options.documentMode = .documentNode) (hacyclic : Acyclic c.Spreads)
    (himported : ∀ e ∈ c.imported, ∀ d ∈ e.fragment.dependencies, (c.fragment? d).isSome)
    (hm : c.generate options sources = .ok m) :
    (∀ o ∈ c.operations, ∃ fs, c.Lists o.spreads fs ∧
      DeclaresTree m options (c.operationConstant options o)
        (.operation o.definition :: Fragment.definitions fs)) ∧
    ∀ f ∈ c.fragments, ∃ fs, c.Lists f.dependencies fs ∧ f.name ∉ fs.map Fragment.name ∧
      DeclaresTree m options (c.fragmentConstant options f)
        (.fragment f.definition :: Fragment.definitions fs) := by
  have hcollects := ofDocuments_eq_ok.mp hc
  have hinline : options.documentMode.isInline := by
    rw [hmode]
    rfl
  constructor
  · intro o ho
    obtain ⟨hlists, _⟩ := lists_operation hcollects hacyclic himported ho
    exact ⟨_, hlists, declaresTree hm (mem_constants_of_operation hinline ho)
      (documentValue_complete hmode _ _) (List.cons_ne_nil _ _)⟩
  · intro f hf
    obtain ⟨hlists, hnew, _⟩ := lists_fragment hcollects hacyclic himported hf
    exact ⟨_, hlists, hnew, declaresTree hm (mem_constants_of_fragment hinline hf)
      (documentValue_complete hmode _ _) (List.cons_ne_nil _ _)⟩

end Collection

end Composables
