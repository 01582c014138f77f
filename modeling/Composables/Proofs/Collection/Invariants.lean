import Mathlib
import Composables.Proofs.Collection.Reachable
import Composables.Proofs.Graphql.Bare

/-
  What is relied on of a collection of documents (`Invariants`): whose declarations it keeps, which
  of the offered fragments it imports, that whatever is spread is found, and that the fragments of
  its own are declared before they are used (`invariants_of_ofDocuments`).
-/

namespace Composables

open Declared (name)

/-! ## First declarations -/

section Firsts

variable {α : Type} [Declared α] {xs : List α} {x : α}

/-- What is kept is what a look for its name finds first. -/
theorem mem_firsts : x ∈ firsts xs ↔ xs.find? (name · == name x) = some x := by
  rw [← find?_firsts, find?_eq_some_iff (nodup_names_firsts xs)]
  exact (and_iff_left rfl).symm

theorem map_name_addNew (xs : List α) (x : α) :
    (addNew xs x).map name = Distinct.push (xs.map name) (name x) := by
  unfold addNew Distinct.push
  split
  · rfl
  · rw [List.map_append, List.map_singleton]

/-- The names of the first declarations are the names in the order in which they first come. -/
theorem map_name_firsts (xs : List α) : (firsts xs).map name = Distinct.ofList (xs.map name) := by
  have run : ∀ kept : List α,
      (xs.foldl addNew kept).map name = Distinct.extend (kept.map name) (xs.map name) := by
    induction xs with
    | nil => exact fun _ => rfl
    | cons x xs ih =>
        intro kept
        rw [List.foldl_cons, ih, map_name_addNew]
        rfl
  exact run []

end Firsts

namespace Collection

variable {ds : List Document} {offered : List ImportedFragment} {c : Collection}

/-- What is relied on of the collection of documents to which fragments were offered. -/
structure Invariants (ds : List Document) (offered : List ImportedFragment) (c : Collection) :
    Prop where
  /-- Of the operations of one name the first is kept, in the order in which the names first
  come. -/
  operations : c.operations.map Operation.name =
    Distinct.ofList ((ds.flatMap Document.operations).map Operation.name)
  operations_nodup : (c.operations.map Operation.name).Nodup
  operations_first : ∀ o, o ∈ c.operations ↔
    (ds.flatMap Document.operations).find? (·.name == o.name) = some o
  /-- Of the fragments of one name the first is kept. -/
  fragments_nodup : (c.fragments.map Fragment.name).Nodup
  fragments_first : ∀ f, f ∈ c.fragments ↔
    (ds.flatMap Document.fragments).find? (·.name == f.name) = some f
  /-- What is declared is not imported; all else that was offered is, in its order. -/
  imported : c.imported =
    offered.filter fun e => e.name ∉ (ds.flatMap Document.fragments).map Fragment.name
  imported_fresh : ∀ e ∈ c.imported, ∀ f ∈ c.fragments, e.name ≠ f.name
  /-- Whatever is spread stands for a fragment. -/
  operations_found : ∀ o ∈ c.operations, ∀ s ∈ o.spreads, (c.fragment? s).isSome
  fragments_found : ∀ f ∈ c.fragments, ∀ s ∈ f.dependencies, (c.fragment? s).isSome
  /-- A fragment of the collection stands behind those of the collection that it spreads. -/
  behind : ∀ (i : Nat) (f : Fragment), c.fragments[i]? = some f → ∀ s ∈ f.dependencies,
    s ∈ c.fragments.map Fragment.name → ∃ j < i, ∃ g, c.fragments[j]? = some g ∧ g.name = s

theorem mem_fragments_iff (h : Collects ds offered c) {f : Fragment} : f ∈ c.fragments ↔
    (ds.flatMap Document.fragments).find? (·.name == f.name) = some f :=
  h.perm_fragments.mem_iff.trans mem_firsts

/-- The fragments that are not imported are those that some document declares. -/
theorem imported_eq_filter (h : Collects ds offered c) : c.imported =
    offered.filter fun e => e.name ∉ (ds.flatMap Document.fragments).map Fragment.name := by
  rw [h.imported]
  refine List.filter_congr fun e _ => ?_
  have hnames : e.name ∈ (firsts (ds.flatMap Document.fragments)).map Fragment.name ↔
      e.name ∈ (ds.flatMap Document.fragments).map Fragment.name := mem_names_firsts
  rw [← any_name] at hnames
  rw [Bool.eq_iff_iff, decide_eq_true_iff, Bool.not_eq_true', ← Bool.not_eq_true]
  exact not_congr hnames

/-- Positions tell what a fragment stands behind. -/
theorem exists_front (h : Collects ds offered c) {i : Nat} {f : Fragment}
    (hf : c.fragments[i]? = some f) {s : String} (hs : s ∈ f.dependencies)
    (hown : s ∈ c.fragments.map Fragment.name) :
    ∃ j < i, ∃ g, c.fragments[j]? = some g ∧ g.name = s := by
  have hfront := (h.arranged.take hf s hs).resolve_right fun hknown =>
    h.imported_fresh s hknown hown
  obtain ⟨g, hg, hname⟩ := List.mem_map.mp hfront
  obtain ⟨j, hj, hget⟩ := List.mem_take_iff_getElem.mp hg
  have hlt := Nat.lt_min.mp hj
  exact ⟨j, hlt.1, g, List.getElem?_eq_some_iff.mpr ⟨hlt.2, hget⟩, hname⟩

/-- Whatever the documents and the fragments offered to them are, if they can be collected the
collection has all that is relied on. -/
theorem invariants_of_ofDocuments (h : ofDocuments ds offered = .ok c) :
    Invariants ds offered c := by
  have hc := ofDocuments_eq_ok.mp h
  have hoperations : c.operations.map Operation.name =
      Distinct.ofList ((ds.flatMap Document.operations).map Operation.name) := by
    rw [hc.operations]
    exact map_name_firsts _
  constructor
  case operations => exact hoperations
  case operations_nodup =>
    rw [hoperations]
    exact Distinct.nodup_ofList _
  case operations_first =>
    intro o
    rw [hc.operations]
    exact mem_firsts
  case fragments_nodup => exact hc.nodup_fragments
  case fragments_first => exact fun f => mem_fragments_iff hc
  case imported => exact imported_eq_filter hc
  case imported_fresh =>
    intro e he f hf hname
    exact hc.imported_fresh _ (List.mem_map_of_mem he) (hname ▸ List.mem_map_of_mem hf)
  case operations_found =>
    exact fun o ho s hs => fragment?_isSome.mpr (hc.spreads_known ho hs)
  case fragments_found =>
    exact fun f hf s hs => fragment?_isSome.mpr (hc.arranged.mem hf hs)
  case behind => exact fun i f hf s hs hown => exists_front hc hf hs hown

/-- Two documents, the second of which says again what the first says and declares what the first
spreads. -/
def feed : List Document :=
  [⟨⟨"feed.graphql"⟩, [.operation (.bare "Feed" ["Entry", "Vote"]),
      .fragment (.bare "Entry" ["Author"])]⟩,
    ⟨⟨"author.graphql"⟩, [.fragment (.bare "Author" []), .fragment (.bare "Entry" ["Author"]),
      .operation (.bare "Feed" ["Entry", "Vote"])]⟩]

/-- Fragments of another module, one of them with a name that the feed declares. -/
def offeredToFeed : List ImportedFragment :=
  [⟨⟨⟨"shared.graphql"⟩, .bare "Author" ["Vote"]⟩, "./shared"⟩,
    ⟨⟨⟨"shared.graphql"⟩, .bare "Vote" []⟩, "./shared"⟩]

def collectedFeed : Collection where
  operations := [⟨⟨"feed.graphql"⟩, "Feed", .bare "Feed" ["Entry", "Vote"]⟩]
  fragments := [⟨⟨"author.graphql"⟩, .bare "Author" []⟩,
    ⟨⟨"feed.graphql"⟩, .bare "Entry" ["Author"]⟩]
  imported := [⟨⟨⟨"shared.graphql"⟩, .bare "Vote" []⟩, "./shared"⟩]

theorem invariants_of_ofDocuments_feed : ofDocuments feed offeredToFeed = .ok collectedFeed ∧
    Invariants feed offeredToFeed collectedFeed := by
  have h : ofDocuments feed offeredToFeed = .ok collectedFeed := by cbv
  exact ⟨h, invariants_of_ofDocuments h⟩

end Collection

end Composables
