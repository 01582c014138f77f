import Composables.Layout
import Composables.Proofs.Collection.Gather
import Composables.Proofs.Collection.Validation
import Composables.Proofs.Module.Generate

/-
  One document of a collection, collected by itself. It is accepted if its definitions ask for
  nothing that their counterparts in the whole collection do not ask for (`exists_collects`).
-/

namespace Composables.Layout

variable {ds : List Document} {d : Document} {c part : Collection} {schema : Schema}
  {extension : String} {jsExtension : Bool}

/-- What a collection says of the definitions of one document: each has a counterpart in it that
spreads as much and asks for as many types, and what it has of the document's file is declared in
the document. -/
structure Restates (c : Collection) (d : Document) : Prop where
  operations : ∀ o ∈ firsts d.operations, ∃ o' ∈ c.operations,
    o'.kind = o.kind ∧ o.spreads ⊆ o'.spreads ∧ o.conditionTypes ⊆ o'.conditionTypes
  fragments : ∀ f ∈ firsts d.fragments, ∃ f' ∈ c.fragments,
    f'.name = f.name ∧ f.dependencies ⊆ f'.dependencies ∧ f.conditionTypes ⊆ f'.conditionTypes
  own : ∀ f ∈ c.fragments, f.file.same d.location → f.name ∈ (firsts d.fragments).map Fragment.name

theorem mem_importedFor {e : ImportedFragment} :
    e ∈ importedFor d.location c extension jsExtension ↔
    (e.fragment ∈ c.fragments ∧ e.fragment.file.same d.location = false) ∧
      e.module = specifier (outputPath d.location extension) (outputPath e.fragment.file extension)
        jsExtension := by
  rw [importedFor, List.mem_map]
  constructor
  · rintro ⟨f, hf, rfl⟩
    exact ⟨by simpa using List.mem_filter.mp hf, rfl⟩
  · rintro ⟨hf, hmodule⟩
    refine ⟨e.fragment, List.mem_filter.mpr (by simpa using hf), ?_⟩
    rw [← hmodule]

theorem map_fragment_importedFor :
    (importedFor d.location c extension jsExtension).map (·.fragment) =
    c.fragments.filter fun f => !f.file.same d.location := by
  rw [importedFor, List.map_map]
  exact List.map_id _

/-- Each name of the collection is declared in the document or offered to it. -/
theorem Restates.known (h : Restates c d) {n : String} (hn : n ∈ c.fragments.map Fragment.name) :
    n ∈ (firsts d.fragments).map Fragment.name ∨
      n ∈ (importedFor d.location c extension jsExtension).map ImportedFragment.name := by
  obtain ⟨f, hf, rfl⟩ := List.mem_map.mp hn
  cases hsame : f.file.same d.location with
  | true => exact .inl (h.own f hf hsame)
  | false =>
      have hmem : f ∈ (importedFor d.location c extension jsExtension).map (·.fragment) := by
        rw [map_fragment_importedFor, List.mem_filter, hsame]
        exact ⟨hf, rfl⟩
      obtain ⟨e, he, rfl⟩ := List.mem_map.mp hmem
      exact .inr (List.mem_map_of_mem he)

/-! ## The collection of one document -/

theorem part_operations {offered : List ImportedFragment} (h : Collects [d] offered part) :
    part.operations = firsts d.operations := by
  rw [h.operations, List.flatMap_singleton]

theorem part_fragments {offered : List ImportedFragment} (h : Collects [d] offered part) :
    part.fragments.Perm (firsts d.fragments) := by
  have hperm := h.perm_fragments
  rwa [List.flatMap_singleton] at hperm

/-- One document of a collection that restates its definitions can be collected with the others'
fragments. -/
theorem exists_collects (hc : Collects ds [] c) (hd : d ∈ ds) (h : Restates c d) :
    ∃ part, Collects [d] (importedFor d.location c extension jsExtension) part := by
  have himported : c.imported = [] := hc.imported
  have hoperations : [d].flatMap Document.operations = d.operations := List.flatMap_singleton ..
  have hfragments : [d].flatMap Document.fragments = d.fragments := List.flatMap_singleton ..
  simp only [← Collection.ofDocuments_eq_ok]
  apply Collection.ofDocuments_ok
  case hoperations =>
    rw [hoperations]
    exact hc.operations_agree.mono fun o ho => List.mem_flatMap.mpr ⟨d, hd, ho⟩
  case hfragments =>
    rw [hfragments]
    exact hc.fragments_agree.mono fun f hf => List.mem_flatMap.mpr ⟨d, hd, hf⟩
  case hacyclic =>
    rw [hfragments]
    refine hc.acyclic.of_map id ?_
    rintro a b ⟨f, hf, rfl, hb⟩
    obtain ⟨f', hf', hname, hdependencies, _⟩ := h.fragments f hf
    exact ⟨f', hf', hname, hdependencies hb⟩
  case hspreads =>
    rw [hoperations, hfragments]
    intro o ho s hs
    obtain ⟨o', ho', _, hspreads, _⟩ := h.operations o ho
    exact h.known ((hc.spreads_known ho' (hspreads hs)).resolve_right (by simp [himported]))
  case hdependencies =>
    rw [hfragments]
    intro f hf s hs
    obtain ⟨f', hf', _, hdependencies, _⟩ := h.fragments f hf
    exact h.known ((hc.arranged.mem hf' (hdependencies hs)).resolve_right (by simp [himported]))

/-- A schema that admits a collection admits each document that it restates. -/
theorem validate_part (h : Restates c d) (hvalid : c.validate schema = .ok ())
    (hpart : Collects [d] (importedFor d.location c extension jsExtension) part) :
    part.validate schema = .ok () := by
  obtain ⟨hroots, htypes, htypes'⟩ := Collection.validate_eq_ok.mp hvalid
  refine Collection.validate_eq_ok.mpr ⟨?_, ?_, ?_⟩
  · intro o ho
    obtain ⟨o', ho', hkind, _, _⟩ := h.operations o (part_operations hpart ▸ ho)
    exact hkind ▸ hroots o' ho'
  · intro f hf t ht
    obtain ⟨f', hf', _, _, hconditions⟩ := h.fragments f ((part_fragments hpart).mem_iff.mp hf)
    exact htypes f' hf' t (hconditions ht)
  · intro o ho t ht
    obtain ⟨o', ho', _, _, hconditions⟩ := h.operations o (part_operations hpart ▸ ho)
    exact htypes' o' ho' t (hconditions ht)

/-- The module of one document is that of its own collection. -/
theorem generate_of_collects {options : Options}
    (hpart : Collects [d] (importedFor d.location c extension (!options.legacyImports)) part)
    (hvalid : part.validate schema = .ok ()) :
    generate schema options c extension d = part.generate options [d.location] :=
  generate_of_valid (Collection.ofDocuments_eq_ok.mpr hpart) hvalid

end Composables.Layout
