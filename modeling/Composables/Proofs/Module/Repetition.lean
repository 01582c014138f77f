import Composables.Proofs.Module.Agreement

/-
  Fragments that a constant defines more than once. Constants that take from others what their
  definition spreads take a fragment once for each way that leads to it. So they define each
  fragment once exactly if no two ways from their spreads lead to one fragment (`once_iff_oneWay`).
-/

namespace Composables

open Graphql (Definition)
open Relation (ReflTransGen)

namespace Graphql

/-- The name of a fragment that is defined. -/
def Definition.fragmentName? : Definition → Option String
  | .fragment d => some d.name
  | _ => none

/-- The names of the fragments that are defined, as often as they are. -/
def fragmentNames (definitions : List Definition) : List String :=
  definitions.filterMap Definition.fragmentName?

/-- No fragment is defined twice. -/
def DefinesOnce (definitions : List Definition) : Prop := (fragmentNames definitions).Nodup

instance (definitions : List Definition) : Decidable (DefinesOnce definitions) :=
  inferInstanceAs (Decidable (fragmentNames definitions).Nodup)

end Graphql

open Graphql (fragmentNames DefinesOnce)

namespace Collection

variable {c : Collection} {ds : List Document} {options : Options} {scope : Scope} {f : Fragment}
  {ns : List String} {a b n : String}

/-- No fragment is reached from two of the names. -/
def Apart (c : Collection) (ns : List String) : Prop :=
  ns.Pairwise fun a b => ∀ g ∈ c.fragments,
    ReflTransGen c.Spreads a g.name → ¬ ReflTransGen c.Spreads b g.name

/-- No fragment is reached from the names in two ways: the ways from them do not meet, nor do the
ways on from a fragment that is reached. -/
structure OneWay (c : Collection) (ns : List String) : Prop where
  apart : c.Apart ns
  below : ∀ g ∈ c.fragments, (∃ n ∈ ns, ReflTransGen c.Spreads n g.name) → c.Apart g.dependencies

/-! ## Ways -/

/-- From several names there is one way at most to each fragment if that is so from what each of
them spreads, and their ways do not meet. -/
theorem oneWay_iff (hc : Collects ds [] c) (hns : ∀ n ∈ ns, n ∈ c.fragments.map Fragment.name) :
    c.OneWay ns ↔ c.Apart ns ∧ ∀ f ∈ c.fragments, f.name ∈ ns → c.OneWay f.dependencies := by
  constructor
  · intro h
    refine ⟨h.apart, fun f hf hn => ⟨h.below f hf ⟨f.name, hn, .refl⟩, ?_⟩⟩
    rintro g hg ⟨d, hd, hreach⟩
    have hself := (fragment?_iff hc).mpr hf
    exact h.below g hg ⟨f.name, hn, .head ⟨f, hself, hd⟩ hreach⟩
  · rintro ⟨hapart, hways⟩
    refine ⟨hapart, ?_⟩
    rintro g hg ⟨n, hn, hreach⟩
    obtain ⟨f, hf, rfl⟩ := List.mem_map.mp (hns n hn)
    have hself := (fragment?_iff hc).mpr hf
    have hone := hways f hf hn
    rcases hreach.cases_head with heq | ⟨d, ⟨f', hf', hd⟩, hrest⟩
    · obtain rfl : f = g := hc.fragment_eq hf hg heq
      exact hone.apart
    · obtain rfl : f = f' := Option.some.inj (hself.symm.trans hf')
      exact hone.below g hg ⟨d, hd, hrest⟩

/-! ## What constants define -/

/-- The constant of a fragment defines the fragments that its name reaches. -/
theorem Expands.mem_fragmentNames (h : c.Expands options scope) (hc : Collects ds [] c)
    (ha : a ∈ c.fragments.map Fragment.name) :
    n ∈ fragmentNames (scope.definitions (options.naming.fragmentConstant a)) ↔
      ∃ g ∈ c.fragments, ReflTransGen c.Spreads a g.name ∧ g.name = n := by
  obtain ⟨f, hf, rfl⟩ := List.mem_map.mp ha
  rw [fragmentNames, List.mem_filterMap]
  constructor
  · rintro ⟨x, hx, hn⟩
    obtain ⟨g, hg, hreach, rfl⟩ := (h.mem_fragment hc f hf x).mp hx
    exact ⟨g, (fragment?_iff hc).mp hg, hreach, Option.some.inj hn⟩
  · rintro ⟨g, hg, hreach, rfl⟩
    have hself := (fragment?_iff hc).mpr hg
    exact ⟨_, (h.mem_fragment hc f hf _).mpr ⟨g, hself, hreach, rfl⟩, rfl⟩

theorem Expands.disjoint_iff (h : c.Expands options scope) (hc : Collects ds [] c)
    (ha : a ∈ c.fragments.map Fragment.name) (hb : b ∈ c.fragments.map Fragment.name) :
    List.Disjoint (fragmentNames (scope.definitions (options.naming.fragmentConstant a)))
        (fragmentNames (scope.definitions (options.naming.fragmentConstant b))) ↔
      ∀ g ∈ c.fragments, ReflTransGen c.Spreads a g.name → ¬ ReflTransGen c.Spreads b g.name := by
  constructor
  · intro hdisjoint g hg hga hgb
    exact hdisjoint ((h.mem_fragmentNames hc ha).mpr ⟨g, hg, hga, rfl⟩)
      ((h.mem_fragmentNames hc hb).mpr ⟨g, hg, hgb, rfl⟩)
  · intro hapart n hna hnb
    obtain ⟨g, hg, hga, rfl⟩ := (h.mem_fragmentNames hc ha).mp hna
    obtain ⟨g', _, hgb, hname⟩ := (h.mem_fragmentNames hc hb).mp hnb
    exact hapart g hg hga (hname ▸ hgb)

/-- What several names bring with them defines each fragment once if that is so for each of the
names, and their ways do not meet. -/
theorem Expands.flatMap_once_iff (h : c.Expands options scope) (hc : Collects ds [] c)
    (hns : ∀ n ∈ ns, n ∈ c.fragments.map Fragment.name)
    (hone : ∀ f ∈ c.fragments, f.name ∈ ns →
      (DefinesOnce (scope.definitions (options.naming.fragmentConstant f.name)) ↔
        c.OneWay f.dependencies)) :
    DefinesOnce (ns.flatMap fun n => scope.definitions (options.naming.fragmentConstant n)) ↔
      c.OneWay ns := by
  rw [DefinesOnce, fragmentNames, List.filterMap_flatMap, List.nodup_flatMap, oneWay_iff hc hns,
    and_comm]
  refine and_congr ?_ ?_
  · exact List.Pairwise.iff_of_mem fun ha hb => h.disjoint_iff hc (hns _ ha) (hns _ hb)
  · constructor
    · intro hnodup f hf hn
      exact (hone f hf hn).mp (hnodup f.name hn)
    · intro hways n hn
      obtain ⟨f, hf, rfl⟩ := List.mem_map.mp (hns n hn)
      exact (hone f hf hn).mpr (hways f hf hn)

/-- A fragment that is defined in front of what its spreads bring with them is not among that. -/
theorem Expands.not_mem_self (h : c.Expands options scope) (hc : Collects ds [] c)
    (hf : f ∈ c.fragments) :
    f.name ∉ fragmentNames (f.dependencies.flatMap fun s =>
      scope.definitions (options.naming.fragmentConstant s)) := by
  rw [fragmentNames, List.filterMap_flatMap, List.mem_flatMap]
  rintro ⟨d, hd, hmem⟩
  obtain ⟨g, _, hreach, hname⟩ :=
    (h.mem_fragmentNames hc (hc.dependencies_own hf d hd)).mp hmem
  have hself := (fragment?_iff hc).mpr hf
  exact acyclic_spreads hc f.name (.head' ⟨f, hself, hd⟩ (hname ▸ hreach))

/-- The constant of a fragment defines each fragment once if there is one way at most from what it
spreads. This goes up the order of the fragments. -/
theorem Expands.fragment_once_iff (h : c.Expands options scope) (hc : Collects ds [] c) :
    ∀ f ∈ c.fragments,
      (DefinesOnce (scope.definitions (options.naming.fragmentConstant f.name)) ↔
        c.OneWay f.dependencies) := by
  refine hc.arranged_own.forall fun front hsub f hf hneeds hfront => ?_
  have hone : ∀ g ∈ c.fragments, g.name ∈ f.dependencies →
      (DefinesOnce (scope.definitions (options.naming.fragmentConstant g.name)) ↔
        c.OneWay g.dependencies) := by
    intro g hg hspread
    obtain ⟨g', hg', hname⟩ :=
      List.mem_map.mp ((hneeds g.name hspread).resolve_right List.not_mem_nil)
    obtain rfl : g' = g := hc.fragment_eq (hsub hg') hg hname
    exact hfront g' hg'
  rw [h f hf, ← h.flatMap_once_iff hc (hc.dependencies_own hf) hone]
  exact List.nodup_cons.trans (and_iff_right (h.not_mem_self hc hf))

/-! ## The constants of a module -/

/-- Once it is declared, a constant that takes from others what its definition spreads defines each
fragment once exactly if no fragment is reached from there in two ways. -/
structure RepeatsByWays (c : Collection) (options : Options) (scope : Scope) : Prop where
  fragments : ∀ f ∈ c.fragments, ∃ held,
    scope.lookup (c.fragmentConstant options f).name = some held ∧
      (DefinesOnce held.definitions ↔ c.OneWay f.dependencies)
  operations : ∀ o ∈ c.operations, ∃ held,
    scope.lookup (c.operationConstant options o).name = some held ∧
      (DefinesOnce held.definitions ↔ c.OneWay o.spreads)

/-- The constants of documents can be declared where they take from others what they need, and each
then defines a fragment as often as ways lead to it: once exactly if there is one way. -/
theorem once_iff_oneWay (hc : Collection.ofDocuments ds [] = .ok c)
    (hinline : options.documentMode.isInline) (hmode : options.documentMode ≠ .documentNode)
    (hnames : ((c.constants options).map Constant.name).Nodup) (sources : List Path) :
    ∃ m scope, c.generate options sources = .ok m ∧ load m.constants = .ok scope ∧
      c.RepeatsByWays options scope := by
  have hcollects := ofDocuments_eq_ok.mp hc
  obtain ⟨m, scope, hm, hscope, hloaded⟩ := exists_loaded hcollects hinline hnames sources
  have hexpands := expands_of_loaded hloaded hinline hmode
  have hfragment := hexpands.fragment_once_iff hcollects
  refine ⟨m, scope, hm, hscope, ?_⟩
  constructor
  case fragments =>
    intro f hf
    have hk := mem_constants_of_fragment hinline hf
    obtain ⟨held, hheld, hdefinitions⟩ :=
      Scope.exists_lookup (hloaded.names ▸ List.mem_map_of_mem hk)
    exact ⟨held, hheld, hdefinitions ▸ hfragment f hf⟩
  case operations =>
    intro o ho
    have hk := mem_constants_of_operation hinline ho
    obtain ⟨held, hheld, hdefinitions⟩ :=
      Scope.exists_lookup (hloaded.names ▸ List.mem_map_of_mem hk)
    refine ⟨held, hheld, ?_⟩
    rw [hdefinitions, hloaded.definitions _ hk]
    refine Iff.trans ?_
      (hexpands.flatMap_once_iff hcollects (hcollects.spreads_own ho) fun f hf _ => hfragment f hf)
    exact (congrArg DefinesOnce (own_append_references hmode _ _ _)).to_iff

theorem once_iff_oneWay_lattice : ∃ c, Collection.ofDocuments [lattice] [] = .ok c ∧
    (c.constants texts).map Constant.name =
      ["BaseFragmentDoc", "LeftFragmentDoc", "RightFragmentDoc", "FeedDocument"] ∧
    ∃ m scope, c.generate texts [lattice.location] = .ok m ∧ load m.constants = .ok scope ∧
      c.RepeatsByWays texts scope := by
  obtain ⟨c, hc⟩ : ∃ c, Collection.ofDocuments [lattice] [] = .ok c := ⟨_, rfl⟩
  have hnames := names_lattice hc
  exact ⟨c, hc, hnames,
    once_iff_oneWay hc (by decide +kernel) (by decide +kernel) (by rw [hnames]; decide) _⟩

/-- A query that spreads a fragment and, before it, one that spreads the same. -/
def shortcut : Document :=
  ⟨⟨"q.graphql"⟩, [.operation (.bare "Q" ["A", "B"]),
    .fragment (.bare "A" ["B"]),
    .fragment (.bare "B" [])]⟩

def splices : Options := .ofMembers [("documentMode", .string "documentNodeImportFragments")]

def collectedShortcut : Collection where
  operations := [⟨⟨"q.graphql"⟩, "Q", .bare "Q" ["A", "B"]⟩]
  fragments := [⟨⟨"q.graphql"⟩, .bare "B" []⟩, ⟨⟨"q.graphql"⟩, .bare "A" ["B"]⟩]
  imported := []

/-- The document of the query defines the second fragment twice, as a tree and as a text. -/
theorem shortcut_repeats : Collection.ofDocuments [shortcut] [] = .ok collectedShortcut ∧
    ∀ options ∈ [splices, texts],
      ((collectedShortcut.constants options).map Constant.name).Nodup ∧
      ∃ m scope held, collectedShortcut.generate options [shortcut.location] = .ok m ∧
        load m.constants = .ok scope ∧ scope.lookup "QDocument" = some held ∧
        fragmentNames held.definitions = ["A", "B", "B"] ∧ ¬ DefinesOnce held.definitions := by
  have hc : Collection.ofDocuments [shortcut] [] = .ok collectedShortcut := by cbv
  have hrepeats : ∀ options ∈ [splices, texts], ∃ m scope,
      collectedShortcut.generate options [shortcut.location] = .ok m ∧
        load m.constants = .ok scope ∧
        (scope.lookup "QDocument").map (fun held => fragmentNames held.definitions) =
          some ["A", "B", "B"] := by
    intro options hoptions
    rcases List.mem_pair.mp hoptions with rfl | rfl
    · exact ⟨_, _, rfl, rfl, by decide +kernel⟩
    · exact ⟨_, _, rfl, rfl, by decide +kernel⟩
  refine ⟨hc, fun options hoptions => ⟨?_, ?_⟩⟩
  · rcases List.mem_pair.mp hoptions with rfl | rfl <;> decide +kernel
  · obtain ⟨m, scope, hm, hscope, hlookup⟩ := hrepeats options hoptions
    obtain ⟨held, hheld, hnames⟩ := Option.map_eq_some_iff.mp hlookup
    refine ⟨m, scope, held, hm, hscope, hheld, hnames, ?_⟩
    rw [DefinesOnce, hnames]
    decide

end Collection

end Composables
