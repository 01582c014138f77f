import Composables.Proofs.Collection.Reachable
import Composables.Proofs.Layout.Part

/-
  Documents that share nothing: neither a file nor the name of an operation or of a fragment. A
  collection of them consists of the collections of each, and a name stands for the same fragment in
  all of these (`all_perm`).
-/

namespace Composables.Layout

/-- Documents of different files, no two of which declare one name. -/
structure Separate (ds : List Document) : Prop where
  locations : ds.Pairwise fun d e => d.location.same e.location = false
  operations : ds.Pairwise fun d e => ∀ o ∈ d.operations, ∀ o' ∈ e.operations, o.name ≠ o'.name
  fragments : ds.Pairwise fun d e => ∀ f ∈ d.fragments, ∀ f' ∈ e.fragments, f.name ≠ f'.name

variable {ds : List Document} {d : Document} {c part : Collection} {extension : String}
  {jsExtension : Bool}

theorem same_comm (p q : Path) : p.same q = q.same p := BEq.comm

/-- Of things that come from different files, those of one file come from its document. -/
theorem filter_same {g : Document → List Fragment} (hg : ∀ e, ∀ f ∈ g e, f.file = e.location)
    (hlocations : ds.Pairwise fun d e => d.location.same e.location = false) (hd : d ∈ ds) :
    (ds.flatMap g).filter (fun f => f.file.same d.location) = g d := by
  obtain ⟨front, back, rfl⟩ := List.append_of_mem hd
  have hother : ∀ es : List Document, (∀ e ∈ es, e.location.same d.location = false) →
      (es.flatMap g).filter (fun f => f.file.same d.location) = [] := by
    intro es hes
    refine List.filter_eq_nil_iff.mpr fun f hf => ?_
    obtain ⟨e, he, hf⟩ := List.mem_flatMap.mp hf
    rw [hg e f hf, hes e he]
    exact Bool.false_ne_true
  have hown : (g d).filter (fun f => f.file.same d.location) = g d :=
    List.filter_eq_self.mpr fun f hf => by rw [hg d f hf, Path.same_refl]
  obtain ⟨_, hback, hfront⟩ := List.pairwise_append.mp hlocations
  rw [List.flatMap_append, List.flatMap_cons, List.filter_append, List.filter_append, hown,
    hother front fun e he => hfront e he d List.mem_cons_self,
    hother back fun e he => by rw [same_comm]; exact List.rel_of_pairwise_cons hback he,
    List.nil_append, List.append_nil]

namespace Separate

theorem operations_eq (h : Separate ds) (hc : Collects ds [] c) :
    c.operations = ds.flatMap fun d => firsts d.operations := by
  rw [hc.operations]
  exact firsts_flatMap h.operations

theorem fragments_perm (h : Separate ds) (hc : Collects ds [] c) :
    c.fragments.Perm (ds.flatMap fun d => firsts d.fragments) := by
  have hfirsts : firsts (ds.flatMap Document.fragments) = ds.flatMap fun d => firsts d.fragments :=
    firsts_flatMap h.fragments
  exact hfirsts ▸ hc.perm_fragments

/-- The fragments of a document are those that a collection has of its file. -/
theorem perm_filter (h : Separate ds) (hc : Collects ds [] c) (hd : d ∈ ds) :
    (c.fragments.filter fun f => f.file.same d.location).Perm (firsts d.fragments) := by
  have hfile : ∀ e : Document, ∀ f ∈ firsts e.fragments, f.file = e.location := fun e f hf =>
    (Document.definition_mem_of_mem_fragments (mem_of_mem_firsts hf)).1
  have hperm := (h.fragments_perm hc).filter fun f => f.file.same d.location
  rwa [filter_same hfile h.locations hd] at hperm

theorem restates (h : Separate ds) (hc : Collects ds [] c) (hd : d ∈ ds) : Restates c d := by
  refine ⟨?_, ?_, ?_⟩
  · intro o ho
    refine ⟨o, ?_, rfl, List.Subset.refl _, List.Subset.refl _⟩
    rw [h.operations_eq hc]
    exact List.mem_flatMap.mpr ⟨d, hd, ho⟩
  · intro f hf
    refine ⟨f, (h.fragments_perm hc).mem_iff.mpr ?_, rfl, List.Subset.refl _, List.Subset.refl _⟩
    exact List.mem_flatMap.mpr ⟨d, hd, hf⟩
  · intro f hf hsame
    exact List.mem_map_of_mem ((h.perm_filter hc hd).mem_iff.mp (List.mem_filter.mpr ⟨hf, hsame⟩))

/-- No fragment that is offered to a document is hidden by one of its own. -/
theorem imported_eq (h : Separate ds) (hc : Collects ds [] c) (hd : d ∈ ds)
    (hpart : Collects [d] (importedFor d.location c extension jsExtension) part) :
    part.imported = importedFor d.location c extension jsExtension := by
  rw [hpart.imported, List.filter_eq_self]
  intro e he
  obtain ⟨⟨hmem, hother⟩, _⟩ := mem_importedFor.mp he
  rw [Bool.not_eq_true', List.any_eq_false]
  intro f hf hname
  obtain ⟨hf, hsame⟩ := List.mem_filter.mp ((h.perm_filter hc hd).mem_iff.mpr (by simpa using hf))
  have hfe : f = e.fragment := List.inj_on_of_nodup_map hc.nodup_fragments hf hmem
      (beq_iff_eq.mp hname)
  rw [hfe, hother] at hsame
  cases hsame

/-- A document and what it imports make up the whole collection. -/
theorem all_perm (h : Separate ds) (hc : Collects ds [] c) (hd : d ∈ ds)
    (hpart : Collects [d] (importedFor d.location c extension jsExtension) part) :
    part.all.Perm c.fragments := by
  have hown : part.fragments.Perm (c.fragments.filter fun f => f.file.same d.location) :=
    (part_fragments hpart).trans (h.perm_filter hc hd).symm
  rw [Collection.all, h.imported_eq hc hd hpart, map_fragment_importedFor]
  exact (hown.append_right _).trans (List.filter_append_perm _ _)

/-- From a document the same fragments are reached as in the whole collection. -/
theorem reachable_eq (h : Separate ds) (hc : Collects ds [] c) (hd : d ∈ ds)
    (hpart : Collects [d] (importedFor d.location c extension jsExtension) part) :
    part.reachable = c.reachable := by
  have hperm := h.all_perm hc hd hpart
  refine Collection.reachable_perm ?_ ((hperm.map Fragment.name).nodup_iff.mpr hc.nodup_fragments)
  rwa [Collection.all_eq_fragments hc.imported]

end Separate

end Composables.Layout
