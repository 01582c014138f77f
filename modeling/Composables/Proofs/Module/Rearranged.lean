import Composables.Proofs.Layout.Blocks

/-
  The order of documents. Where no name is declared twice, documents in another order have a
  collection just if they have one at all, and the two differ only in the order of what they hold
  (`Rearranged`). Their modules have the same lines in front and the same blocks, in some order
  (`ofDocuments_perm`).
-/

namespace Composables

open Declared (name)

/-! ## Names that are declared once -/

section Once

variable {α : Type} [Declared α] {xs : List α}

theorem firsts_eq_self (h : (xs.map name).Nodup) : firsts xs = xs := by
  induction xs with
  | nil => rfl
  | cons x xs ih =>
      rw [List.map_cons, List.nodup_cons] at h
      have hother : ∀ y ∈ [x], ∀ z ∈ xs, name y ≠ name z := by
        intro y hy z hz heq
        rw [List.mem_singleton.mp hy] at heq
        exact h.1 (heq ▸ List.mem_map_of_mem hz)
      have happend : firsts ([x] ++ xs) = firsts [x] ++ firsts xs := firsts_append hother
      rw [ih h.2] at happend
      exact happend

theorem agree_of_nodup (h : (xs.map name).Nodup) : Agree xs := by
  intro x hx y hy hname
  rw [List.inj_on_of_nodup_map h hx hy hname]

end Once

namespace Collection

variable {c c' : Collection} {options : Options} {sources sources' : List Path} {m : Module}
  {ds ds' : List Document} {offered : List ImportedFragment}

/-- The same definitions in whatever order, and the same imported fragments in the same order. -/
structure Rearranged (c c' : Collection) : Prop where
  operations : c.operations.Perm c'.operations
  fragments : c.fragments.Perm c'.fragments
  imported : c.imported = c'.imported

/-! ## Collecting -/

/-- Documents that can be collected can be collected in another order. -/
theorem exists_collects_of_perm (hperm : ds.Perm ds')
    (hoperations : ((ds.flatMap Document.operations).map Operation.name).Nodup)
    (hfragments : ((ds.flatMap Document.fragments).map Fragment.name).Nodup)
    (hc : Collects ds offered c) : ∃ c', Collects ds' offered c' := by
  have hos : (ds.flatMap Document.operations).Perm (ds'.flatMap Document.operations) :=
    hperm.flatMap_right _
  have hfs : (ds.flatMap Document.fragments).Perm (ds'.flatMap Document.fragments) :=
    hperm.flatMap_right _
  have hoperations' := (hos.map Operation.name).nodup_iff.mp hoperations
  have hfragments' := (hfs.map Fragment.name).nodup_iff.mp hfragments
  have hown : ∀ f ∈ ds'.flatMap Document.fragments, f ∈ c.fragments := by
    intro f hf
    rw [hc.perm_fragments.mem_iff, firsts_eq_self hfragments]
    exact hfs.mem_iff.mpr hf
  -- whatever is known in the one order is known in the other
  have hknown : ∀ s, s ∈ c.fragments.map Fragment.name ∨ s ∈ c.imported.map ImportedFragment.name →
      s ∈ (ds'.flatMap Document.fragments).map Fragment.name ∨
        s ∈ offered.map ImportedFragment.name := by
    rintro s (hs | hs)
    · have hnames := hc.perm_fragments.map Fragment.name
      rw [firsts_eq_self hfragments] at hnames
      exact .inl ((hnames.trans (hfs.map Fragment.name)).mem_iff.mp hs)
    · rw [hc.imported] at hs
      exact .inr ((List.filter_sublist.map ImportedFragment.name).subset hs)
  simp only [← ofDocuments_eq_ok]
  apply ofDocuments_ok
  case hoperations => exact agree_of_nodup hoperations'
  case hfragments => exact agree_of_nodup hfragments'
  case hacyclic =>
    rw [firsts_eq_self hfragments']
    refine hc.acyclic.of_map id ?_
    rintro a b ⟨f, hf, hname, hb⟩
    exact ⟨f, hown f hf, hname, hb⟩
  case hspreads =>
    rw [firsts_eq_self hoperations', firsts_eq_self hfragments']
    intro o ho s hs
    have hmem : o ∈ c.operations := by
      rw [hc.operations, firsts_eq_self hoperations]
      exact hos.mem_iff.mpr ho
    exact hknown s (hc.spreads_known hmem hs)
  case hdependencies =>
    rw [firsts_eq_self hfragments']
    exact fun f hf s hs => hknown s (hc.arranged.mem (hown f hf) hs)

theorem rearranged_of_perm (hperm : ds.Perm ds')
    (hoperations : ((ds.flatMap Document.operations).map Operation.name).Nodup)
    (hfragments : ((ds.flatMap Document.fragments).map Fragment.name).Nodup)
    (hc : Collects ds offered c) (hc' : Collects ds' offered c') : c.Rearranged c' := by
  have hos : (ds.flatMap Document.operations).Perm (ds'.flatMap Document.operations) :=
    hperm.flatMap_right _
  have hfs : (ds.flatMap Document.fragments).Perm (ds'.flatMap Document.fragments) :=
    hperm.flatMap_right _
  have hfirsts := firsts_eq_self hfragments
  have hfirsts' := firsts_eq_self ((hfs.map Fragment.name).nodup_iff.mp hfragments)
  constructor
  case operations =>
    rw [hc.operations, hc'.operations, firsts_eq_self hoperations,
      firsts_eq_self ((hos.map Operation.name).nodup_iff.mp hoperations)]
    exact hos
  case fragments =>
    have hpf := hc.perm_fragments
    have hpf' := hc'.perm_fragments
    rw [hfirsts] at hpf
    rw [hfirsts'] at hpf'
    exact hpf.trans (hfs.trans hpf'.symm)
  case imported =>
    rw [hc.imported, hc'.imported, hfirsts, hfirsts']
    refine List.filter_congr fun e _ => ?_
    rw [hfs.any_eq]

/-! ## Modules -/

theorem externalModule_perm (h : sources.Perm sources') :
    externalModule options sources = externalModule options sources' := by
  unfold externalModule
  split
  · rfl
  · rfl
  · -- the only document, if there is just one, stays where it is
    rcases sources with _ | ⟨source, _ | ⟨next, rest⟩⟩
    · rw [h.nil_eq]
    · rw [h.singleton_eq]
    · rcases sources' with _ | ⟨source', _ | ⟨next', rest'⟩⟩
      · exact absurd h.length_eq (by simp)
      · exact absurd h.length_eq (by simp)
      · rw [h.length_eq]

namespace Rearranged

theorem fragment?_eq (h : c.Rearranged c') (hnodup : (c.fragments.map Fragment.name).Nodup) :
    c.fragment? = c'.fragment? := by
  funext n
  have hfind : c.fragments.find? (fun f => f.name == n) =
      c'.fragments.find? (fun f => f.name == n) := find?_perm h.fragments hnodup n
  rw [fragment?, fragment?, hfind, h.imported]

theorem reachable_eq (h : c.Rearranged c') (hnodup : (c.fragments.map Fragment.name).Nodup) :
    c.reachable = c'.reachable := by
  funext names
  rw [reachable, reachable, reach_congr (h.fragment?_eq hnodup), h.fragments.length_eq, h.imported]

theorem isEmpty_eq (h : c.Rearranged c') : c.isEmpty = c'.isEmpty := by
  rw [isEmpty, isEmpty, h.operations.isEmpty_eq, h.fragments.isEmpty_eq]

theorem hasOperations_eq (h : c.Rearranged c') : c.hasOperations = c'.hasOperations := by
  rw [hasOperations, hasOperations, h.operations.isEmpty_eq]

/-- The imports of fragments follow the order of what is imported. -/
theorem fragmentImports_eq (h : c.Rearranged c') (n : Naming) :
    c.fragmentImports n = c'.fragmentImports n := by
  have hspreads : c.spreads.Perm c'.spreads :=
    (h.fragments.flatMap_right _).append (h.operations.flatMap_right _)
  have himported : c.isImported = c'.isImported := by
    funext s
    rw [isImported, isImported, h.fragments.any_eq, h.imported]
  have hreferenced : c.referenced.Perm c'.referenced := by
    rw [referenced, referenced, himported]
    exact hspreads.filter _
  have hused : (c.imported.filter fun f => c.referenced.contains f.name) =
      c'.imported.filter fun f => c'.referenced.contains f.name := by
    rw [h.imported]
    exact List.filter_congr fun f _ => hreferenced.contains_eq
  unfold fragmentImports
  rw [hused]

theorem documentImports_eq (h : c.Rearranged c') (hsources : sources.Perm sources') :
    c.documentImports options sources = c'.documentImports options sources' := by
  unfold documentImports
  rw [h.isEmpty_eq, h.hasOperations_eq, h.fragmentImports_eq, externalModule_perm hsources]

theorem constants_perm (h : c.Rearranged c') (hnodup : (c.fragments.map Fragment.name).Nodup) :
    (c.constants options).Perm (c'.constants options) := by
  have hvalue : c.documentValue = c'.documentValue := by
    funext options definition spreads
    unfold documentValue
    rw [h.reachable_eq hnodup]
  have hfragment : c.fragmentConstant = c'.fragmentConstant := by
    funext options f
    rw [fragmentConstant, fragmentConstant, hvalue]
  have hoperation : c.operationConstant = c'.operationConstant := by
    funext options o
    rw [operationConstant, operationConstant, hvalue]
  unfold constants
  split
  · rw [hfragment, hoperation]
    exact (h.fragments.map _).append (h.operations.map _)
  · exact .refl _

/-- Modules of the same definitions have the same lines in front, and the same blocks. -/
theorem exists_generate (h : c.Rearranged c') (hnodup : (c.fragments.map Fragment.name).Nodup)
    (hsources : sources.Perm sources') (hm : c.generate options sources = .ok m) :
    ∃ m', c'.generate options sources' = .ok m' ∧ m.prepend = m'.prepend ∧
      m.blocks.Perm m'.blocks := by
  obtain ⟨is, his, rfl⟩ := generate_eq_ok.mp hm
  rw [h.documentImports_eq hsources] at his
  have hbinds : c.bindsFunctions options = c'.bindsFunctions options := by
    rw [bindsFunctions, bindsFunctions, h.hasOperations_eq]
  refine ⟨_, generate_eq_ok.mpr ⟨is, his, rfl⟩, ?_, ?_⟩
  · rw [Module.prepend, Module.prepend, hbinds]
  · rw [hbinds]
    refine ((h.constants_perm hnodup).map _).append (List.Perm.map _ ?_)
    split
    · exact h.operations.map _
    · exact .refl _

theorem generate_eq_error_iff {e : Error} (h : c.Rearranged c')
    (hsources : sources.Perm sources') :
    c.generate options sources = .error e ↔ c'.generate options sources' = .error e := by
  have himports : c.documentImports options sources = c'.documentImports options sources' :=
    h.documentImports_eq hsources
  constructor
  · intro he
    rw [generate, ← himports, Collection.generate_eq_error he]
    rfl
  · intro he
    rw [generate, himports, Collection.generate_eq_error he]
    rfl

end Rearranged

/-- Documents in which no name is declared twice can be taken in any order. In each order or in none
they have a collection, of the same definitions; from it comes a module with the same lines in front
and the same blocks, up to their order, or the same error. -/
theorem ofDocuments_perm (hperm : ds.Perm ds')
    (hoperations : ((ds.flatMap Document.operations).map Operation.name).Nodup)
    (hfragments : ((ds.flatMap Document.fragments).map Fragment.name).Nodup)
    (offered : List ImportedFragment) :
    ((∃ c, ofDocuments ds offered = .ok c) ↔ ∃ c', ofDocuments ds' offered = .ok c') ∧
      ∀ c c', ofDocuments ds offered = .ok c → ofDocuments ds' offered = .ok c' →
        c.Rearranged c' ∧ ∀ options sources sources', sources.Perm sources' →
          (∀ e, c.generate options sources = .error e ↔
            c'.generate options sources' = .error e) ∧
          ∀ m, c.generate options sources = .ok m →
            ∃ m', c'.generate options sources' = .ok m' ∧ m.prepend = m'.prepend ∧
              m.blocks.Perm m'.blocks := by
  constructor
  · simp only [ofDocuments_eq_ok]
    constructor
    · rintro ⟨c, hc⟩
      exact exists_collects_of_perm hperm hoperations hfragments hc
    · rintro ⟨c', hc'⟩
      have hos := (hperm.flatMap_right Document.operations).map Operation.name
      have hfs := (hperm.flatMap_right Document.fragments).map Fragment.name
      exact exists_collects_of_perm hperm.symm (hos.nodup_iff.mp hoperations)
        (hfs.nodup_iff.mp hfragments) hc'
  · intro c c' hc hc'
    have hcollects := ofDocuments_eq_ok.mp hc
    have h := rearranged_of_perm hperm hoperations hfragments hcollects
      (ofDocuments_eq_ok.mp hc')
    refine ⟨h, fun options sources sources' hsources => ⟨fun e => ?_, fun m hm => ?_⟩⟩
    · exact h.generate_eq_error_iff hsources
    · exact h.exists_generate hcollects.nodup_fragments hsources hm

/-- A query with fragments of other documents and one of another module, which is spread twice. -/
def tour : List Document :=
  [⟨⟨"tour.graphql"⟩, [.operation (.bare "Tour" ["Stop", "Guide", "Map"])]⟩,
    ⟨⟨"stop.graphql"⟩, [.fragment (.bare "Stop" ["Place", "Guide"])]⟩,
    ⟨⟨"place.graphql"⟩, [.fragment (.bare "Place" [])]⟩,
    ⟨⟨"map.graphql"⟩, [.fragment (.bare "Map" [])]⟩]

def guide : ImportedFragment := ⟨⟨⟨"guide.graphql"⟩, .bare "Guide" []⟩, "./guide"⟩

theorem ofDocuments_perm_tour : tour.Perm tour.reverse ∧
    ((tour.flatMap Document.operations).map Operation.name).Nodup ∧
    ((tour.flatMap Document.fragments).map Fragment.name).Nodup ∧
    ∃ c c', ofDocuments tour [guide] = .ok c ∧ ofDocuments tour.reverse [guide] = .ok c' ∧
      c.fragments.map Fragment.name = ["Place", "Stop", "Map"] ∧
      c'.fragments.map Fragment.name = ["Map", "Place", "Stop"] ∧ c.Rearranged c' ∧
      ∃ m m', c.generate (.ofMembers []) (tour.map Document.location) = .ok m ∧
        c'.generate (.ofMembers []) (tour.reverse.map Document.location) = .ok m' ∧
        m.prepend = m'.prepend ∧ m.blocks.Perm m'.blocks := by
  have hperm : tour.Perm tour.reverse := tour.reverse_perm.symm
  have hoperations : ((tour.flatMap Document.operations).map Operation.name).Nodup := by
    decide +kernel
  have hfragments : ((tour.flatMap Document.fragments).map Fragment.name).Nodup := by
    decide +kernel
  obtain ⟨c, hc⟩ : ∃ c, ofDocuments tour [guide] = .ok c := ⟨_, rfl⟩
  obtain ⟨hiff, hsame⟩ := ofDocuments_perm hperm hoperations hfragments [guide]
  obtain ⟨c', hc'⟩ := hiff.mp ⟨c, hc⟩
  obtain ⟨hrearranged, hgenerate⟩ := hsame c c' hc hc'
  obtain ⟨m, hm⟩ : ∃ m, c.generate (.ofMembers []) (tour.map Document.location) = .ok m :=
    c.exists_generate (by decide +kernel)
  obtain ⟨m', hm', hmodules⟩ := (hgenerate _ _ _ (hperm.map Document.location)).2 m hm
  refine ⟨hperm, hoperations, hfragments, c, c', hc, hc', ?_, ?_, hrearranged, m, m', hm, hm',
    hmodules⟩
  · obtain rfl := Except.ok.inj hc
    decide +kernel
  · obtain rfl := Except.ok.inj hc'
    decide +kernel

end Collection

end Composables
