import Composables.Proofs.Module.Complete
import Composables.Proofs.Module.Evaluate

/-
  The same definitions in each mode. Whether constants take what their fragments hold from other
  constants or list it as a whole, declared one after another they hold the same definitions
  (`modes_agree`).
-/

namespace Composables

open Graphql (Definition)
open Relation (ReflTransGen)

/-- Whether constants are trees. -/
def DocumentMode.makesTrees (mode : DocumentMode) : Bool :=
  mode == .documentNode || mode == .documentNodeImportFragments

/-- The options for constants that list all they need. -/
def Options.complete (options : Options) : Options := { options with documentMode := .documentNode }

/-- What a constant holds are the given definitions, in whatever order and however often. -/
def Scope.Holds (scope : Scope) (name : String) (definitions : List Definition) : Prop :=
  ∃ held, scope.lookup name = some held ∧ ∀ x, x ∈ held.definitions ↔ x ∈ definitions

theorem Scope.holds_of_mem {scope : Scope} {name : String} {definitions : List Definition}
    (hname : name ∈ scope.map Prod.fst)
    (h : ∀ x, x ∈ scope.definitions name ↔ x ∈ definitions) : scope.Holds name definitions := by
  obtain ⟨held, hheld, hdefinitions⟩ := exists_lookup hname
  exact ⟨held, hheld, hdefinitions ▸ h⟩

namespace Collection

variable {c : Collection} {ds : List Document} {options : Options} {scope : Scope}
  {fs : List Fragment} {f : Fragment} {ns : List String}

/-! ## Collections that import nothing -/

/-- A name stands for one of the collection's own fragments. -/
theorem fragment?_iff (hc : Collects ds [] c) : c.fragment? f.name = some f ↔ f ∈ c.fragments := by
  constructor
  · intro hf
    rcases mem_of_fragment? hf with hf | ⟨e, he, _⟩
    · exact hf
    · rw [hc.imported] at he
      cases he
  · exact fragment?_of_mem hc.nodup_fragments

theorem acyclic_spreads (hc : Collects ds [] c) : Acyclic c.Spreads := by
  refine hc.acyclic.of_map id ?_
  rintro a b ⟨f, hf, hb⟩
  obtain rfl := name_of_fragment? hf
  exact ⟨f, (fragment?_iff hc).mp hf, rfl, hb⟩

/-- The fragments that known names reach are listed completely. -/
theorem lists_own (hc : Collects ds [] c) (hns : ∀ n ∈ ns, n ∈ c.fragments.map Fragment.name) :
    c.Lists ns (c.reachable ns) := by
  have hknown : ∀ n ∈ c.fragments.map Fragment.name, (c.fragment? n).isSome := fun n hn =>
    fragment?_isSome.mpr (.inl hn)
  have hresolves : c.Resolves := by
    rintro a b ⟨f, hf, hb⟩
    obtain rfl := name_of_fragment? hf
    exact hknown b (hc.dependencies_own ((fragment?_iff hc).mp hf) b hb)
  exact lists_reachable (acyclic_spreads hc) hresolves fun n hn => hknown n (hns n hn)

/-! ## Declaring the constants of a collection -/

theorem isTree_of_mem_constants {k : Constant} (hk : k ∈ c.constants options) :
    k.value.isTree = options.documentMode.makesTrees := by
  rw [Bool.eq_iff_iff]
  obtain ⟨_, ⟨f, _, rfl⟩ | ⟨o, _, rfl⟩⟩ := mem_constants hk
  · exact isTree_documentValue.trans (by simp [DocumentMode.makesTrees])
  · exact isTree_documentValue.trans (by simp [DocumentMode.makesTrees])

/-- If nothing is imported, each constant refers only to constants in front of it. -/
theorem supplied_constants (h : Collects ds [] c) :
    Supplied (fun front k => ∀ r ∈ k.value.references, r ∈ front.map Constant.name)
      (c.constants options) := by
  unfold constants
  split
  · refine supplied_append.mpr ⟨supplied_map.mpr ?_, supplied_of_forall ?_⟩
    · refine h.arranged_own.imp fun front f _ hfront r hr => ?_
      obtain ⟨_, s, hs, rfl⟩ := mem_references hr
      obtain ⟨g, hg, rfl⟩ := List.mem_map.mp ((hfront s hs).resolve_right List.not_mem_nil)
      rw [List.map_map]
      exact List.mem_map_of_mem hg
    · intro front k hk r hr
      obtain ⟨o, ho, rfl⟩ := List.mem_map.mp hk
      obtain ⟨_, s, hs, rfl⟩ := mem_references hr
      obtain ⟨g, hg, rfl⟩ := List.mem_map.mp (h.spreads_own ho s hs)
      rw [List.map_append, List.map_map]
      exact List.mem_append_left _ (List.mem_map_of_mem hg)
  · exact supplied_nil

/-- A collection that imports nothing has a module, whose constants can be declared if their names
differ. -/
theorem exists_loaded (h : Collects ds [] c) (hinline : options.documentMode.isInline)
    (hnames : ((c.constants options).map Constant.name).Nodup) (sources : List Path) :
    ∃ m scope, c.generate options sources = .ok m ∧ load m.constants = .ok scope ∧
      Loaded options.documentMode.makesTrees (c.constants options) scope := by
  obtain ⟨m, hm⟩ : ∃ m, c.generate options sources = .ok m := c.exists_generate hinline
  obtain ⟨_, _, hmakes⟩ := makes_of_generate hm
  have hkind : ∀ k ∈ c.constants options, k.value.isTree = options.documentMode.makesTrees :=
    fun _ hk => isTree_of_mem_constants hk
  obtain ⟨scope, hscope, hloaded⟩ := exists_load hkind hnames (supplied_constants h)
  exact ⟨m, scope, hm, hmakes.constants ▸ hscope, hloaded⟩

/-! ## What the constants hold -/

/-- Where constants take from others what they need, a value has its own definition and refers to
one constant for each spread. -/
theorem own_append_references (hmode : options.documentMode ≠ .documentNode) (x : Definition)
    (spreads : List String) (g : String → List Definition) :
    (c.documentValue options x spreads).own ++
        (c.documentValue options x spreads).references.flatMap g =
      x :: spreads.flatMap fun s => g (options.naming.fragmentConstant s) := by
  unfold documentValue
  cases hcase : options.documentMode with
  | documentNode => exact absurd hcase hmode
  | graphQLTag | documentNodeImportFragments | string | external =>
      exact congrArg (x :: ·) (List.flatMap_map options.naming.fragmentConstant g spreads)

/-- The constants of fragments hold their own definition and behind it what the constants of those
hold that they spread. -/
def Expands (c : Collection) (options : Options) (scope : Scope) : Prop :=
  ∀ f ∈ c.fragments,
    scope.definitions (options.naming.fragmentConstant f.name) = .fragment f.definition ::
      f.dependencies.flatMap fun s => scope.definitions (options.naming.fragmentConstant s)

theorem expands_of_loaded {tree : Bool} (h : Loaded tree (c.constants options) scope)
    (hinline : options.documentMode.isInline) (hmode : options.documentMode ≠ .documentNode) :
    c.Expands options scope := by
  intro f hf
  exact (h.definitions _ (mem_constants_of_fragment hinline hf)).trans
    (own_append_references hmode _ _ _)

/-- A definition is that of a fragment which a name reaches. -/
def Reaches (c : Collection) (n : String) (x : Definition) : Prop :=
  ∃ g, c.fragment? g.name = some g ∧ ReflTransGen c.Spreads n g.name ∧ x = .fragment g.definition

/-- A fragment reaches itself and whatever the fragments reach that it spreads. -/
theorem reaches_iff (hf : c.fragment? f.name = some f) {x : Definition} :
    c.Reaches f.name x ↔ x = .fragment f.definition ∨ ∃ s ∈ f.dependencies, c.Reaches s x := by
  constructor
  · rintro ⟨g, hg, hreach, rfl⟩
    rcases hreach.cases_head with heq | ⟨s, ⟨f', hf', hs⟩, hrest⟩
    · obtain rfl : f = g := Option.some.inj (hf.symm.trans (heq ▸ hg))
      exact .inl rfl
    · obtain rfl : f = f' := Option.some.inj (hf.symm.trans hf')
      exact .inr ⟨s, hs, g, hg, hrest, rfl⟩
  · rintro (rfl | ⟨s, hs, g, hg, hrest, rfl⟩)
    · exact ⟨f, hf, .refl, rfl⟩
    · exact ⟨g, hg, .head ⟨f, hf, hs⟩ hrest, rfl⟩

theorem Lists.mem_definitions (h : c.Lists ns fs) {x : Definition} :
    x ∈ Fragment.definitions fs ↔ ∃ n ∈ ns, c.Reaches n x := by
  constructor
  · intro hx
    obtain ⟨g, hg, rfl⟩ := List.mem_map.mp hx
    obtain ⟨hresolved, n, hn, hreach⟩ := (h.mem_iff g).mp hg
    exact ⟨n, hn, g, hresolved, hreach, rfl⟩
  · rintro ⟨n, hn, g, hresolved, hreach, rfl⟩
    exact List.mem_map_of_mem ((h.mem_iff g).mpr ⟨hresolved, n, hn, hreach⟩)

/-- The constant of a fragment holds what the fragment reaches. This goes up the order of the
fragments: what a fragment spreads stands in front of it. -/
theorem Expands.mem_fragment (h : c.Expands options scope) (hc : Collects ds [] c) :
    ∀ f ∈ c.fragments, ∀ x,
      x ∈ scope.definitions (options.naming.fragmentConstant f.name) ↔ c.Reaches f.name x := by
  refine hc.arranged_own.forall fun front _ f hf hneeds hfront x => ?_
  rw [h f hf, List.mem_cons, List.mem_flatMap, reaches_iff ((fragment?_iff hc).mpr hf)]
  refine or_congr_right (exists_congr fun s => and_congr_right fun hs => ?_)
  obtain ⟨g, hg, rfl⟩ := List.mem_map.mp ((hneeds s hs).resolve_right List.not_mem_nil)
  exact hfront g hg x

/-! ## The modes -/

/-- Once it is declared, a constant of any mode holds its own definition and those of the fragments
reached from there. -/
theorem holds_reachable {tree : Bool} {k : Constant} {x : Definition} (hc : Collects ds [] c)
    (hloaded : Loaded tree (c.constants options) scope) (hinline : options.documentMode.isInline)
    (hk : k ∈ c.constants options) (hvalue : k.value = c.documentValue options x ns)
    (hns : ∀ n ∈ ns, n ∈ c.fragments.map Fragment.name) :
    scope.Holds k.name (x :: Fragment.definitions (c.reachable ns)) := by
  refine Scope.holds_of_mem (hloaded.names ▸ List.mem_map_of_mem hk) fun y => ?_
  rw [hloaded.definitions k hk, hvalue]
  by_cases hmode : options.documentMode = .documentNode
  · simp [documentValue, hmode, DocumentValue.own, DocumentValue.references, Fragment.definitions]
  · have hexpands := expands_of_loaded hloaded hinline hmode
    rw [own_append_references hmode, List.mem_cons, List.mem_cons,
      (lists_own hc hns).mem_definitions, List.mem_flatMap]
    refine or_congr_right (exists_congr fun n => and_congr_right fun hn => ?_)
    obtain ⟨f, hf, rfl⟩ := List.mem_map.mp (hns n hn)
    exact hexpands.mem_fragment hc f hf y

/-- Once they are declared, constants hold the definitions that those of the mode of document nodes
list. -/
structure Agrees (c : Collection) (options : Options) (scope : Scope) : Prop where
  printed : ∀ p ∈ scope, p.2.isTree = options.documentMode.makesTrees ∧ p.2.Printed
  fragments : ∀ f ∈ c.fragments, ∃ definitions,
    (c.fragmentConstant options.complete f).value = .complete definitions ∧
      scope.Holds (c.fragmentConstant options f).name definitions
  operations : ∀ o ∈ c.operations, ∃ definitions,
    (c.operationConstant options.complete o).value = .complete definitions ∧
      scope.Holds (c.operationConstant options o).name definitions

/-- A query that reaches one fragment in two ways. -/
def lattice : Document :=
  ⟨⟨"feed.graphql"⟩, [.operation (.bare "Feed" ["Left", "Right"]),
    .fragment (.bare "Left" ["Base"]),
    .fragment (.bare "Right" ["Base"]),
    .fragment (.bare "Base" [])]⟩

def texts : Options := .ofMembers [("documentMode", .string "string")]

theorem names_lattice (hc : Collection.ofDocuments [lattice] [] = .ok c) :
    (c.constants texts).map Constant.name =
      ["BaseFragmentDoc", "LeftFragmentDoc", "RightFragmentDoc", "FeedDocument"] := by
  obtain rfl := Except.ok.inj hc
  decide +kernel

end Collection

end Composables
