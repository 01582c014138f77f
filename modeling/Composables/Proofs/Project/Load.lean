import Composables.Project.Compile
import Composables.Proofs.FileSystem.Resolve
import Composables.Proofs.Graphql.Printed
import Composables.Proofs.Layout.Part

/-
  The documents of a project. Each is what its file says, so that documents of one file have the
  same definitions, and what is collected of them restates each (`restates_of_load`).
-/

namespace Composables

theorem Document.parse_eq_ok {text : String} {path : Path} {d : Document}
    (h : Document.parse text path = .ok d) :
    d.location = path ∧ Graphql.parseDocument text = .ok d.definitions := by
  unfold Document.parse at h
  split at h
  · rename_i definitions hparse
    obtain rfl := Except.ok.inj h
    exact ⟨rfl, hparse⟩
  · cases h

namespace Project

open Graphql (PrintTells)

variable {fs : FileSystem} {p : Project} {l : Loaded} {ds : List Document} {d e : Document}
  {c : Collection}

theorem readFile_eq_ok {path : Path} {text : String} :
    readFile fs path = .ok text ↔ fs.readText path = .ok text :=
  Outcome.mapError_eq_ok

/-- A document is what the file at its location says. -/
def FromFile (fs : FileSystem) (d : Document) : Prop :=
  ∃ text, fs.readText d.location = .ok text ∧ Graphql.parseDocument text = .ok d.definitions

theorem fromFile_of_load {path : Path} (h : loadDocument fs path = .ok d) : FromFile fs d := by
  obtain ⟨text, htext, hparse⟩ := Outcome.bind_eq_ok.mp h
  obtain ⟨rfl, hdefinitions⟩ := Document.parse_eq_ok hparse
  exact ⟨text, readFile_eq_ok.mp htext, hdefinitions⟩

theorem fromFile_of_mem {roots : List Path} (h : loadDocuments fs roots = .ok ds) (hd : d ∈ ds) :
    FromFile fs d := by
  obtain ⟨groups, hgroups, h⟩ := Outcome.bind_eq_ok.mp h
  obtain rfl := Except.ok.inj h
  obtain ⟨group, hgroup, hd⟩ := List.mem_flatten.mp hd
  obtain ⟨root, _, hroot⟩ := Outcome.mem_of_mapM hgroups hgroup
  unfold loadRoot at hroot
  split at hroot
  · obtain ⟨path, _, hload⟩ := Outcome.mem_of_mapM hroot hd
    exact fromFile_of_load hload
  · cases hroot

/-- Documents of one file have the same definitions. -/
theorem FromFile.definitions_eq (hd : FromFile fs d) (he : FromFile fs e)
    (h : d.location.same e.location = true) :
    d.definitions = e.definitions := by
  obtain ⟨text, htext, hparse⟩ := hd
  obtain ⟨text', htext', hparse'⟩ := he
  rw [FileSystem.readText_same h htext htext', hparse'] at hparse
  exact (Except.ok.inj hparse).symm

/-- What a project that was read consists of. -/
theorem loadAll_eq_ok (h : loadAll fs p = .ok l) :
    loadDocuments fs p.documents = .ok l.documents ∧
      Collection.ofDocuments l.documents [] = .ok l.collection ∧
      l.collection.validate l.schema = .ok () := by
  unfold loadAll at h
  obtain ⟨text, _, h⟩ := Outcome.bind_eq_ok.mp h
  obtain ⟨schema, _, h⟩ := Outcome.bind_eq_ok.mp h
  obtain ⟨documents, hdocuments, h⟩ := Outcome.bind_eq_ok.mp h
  dsimp only at h
  split at h
  · cases h
  · obtain ⟨collection, hcollection, h⟩ := Outcome.bind_eq_ok.mp h
    obtain ⟨⟨⟩, hvalid, h⟩ := Outcome.bind_eq_ok.mp h
    obtain rfl := Except.ok.inj h
    exact ⟨hdocuments, hcollection, hvalid⟩

/-- What is collected of the documents of files restates each of them, if their prints tell what
they ask for. -/
theorem restates_of_files (hfiles : ∀ e ∈ ds, FromFile fs e)
    (hprint : PrintTells (ds.flatMap Document.definitions)) (hc : Collects ds [] c) (hd : d ∈ ds) :
    Layout.Restates c d := by
  have hoperation : ∀ o ∈ ds.flatMap Document.operations,
      .operation o.definition ∈ ds.flatMap Document.definitions := by
    intro o ho
    obtain ⟨e, he, ho⟩ := List.mem_flatMap.mp ho
    exact List.mem_flatMap.mpr ⟨e, he, (Document.definition_mem_of_mem_operations ho).2⟩
  have hfragment : ∀ f ∈ ds.flatMap Document.fragments,
      .fragment f.definition ∈ ds.flatMap Document.definitions := by
    intro f hf
    obtain ⟨e, he, hf⟩ := List.mem_flatMap.mp hf
    exact List.mem_flatMap.mpr ⟨e, he, (Document.definition_mem_of_mem_fragments hf).2⟩
  refine ⟨?_, ?_, ?_⟩
  · intro o ho
    have hmem := List.mem_flatMap.mpr ⟨d, hd, mem_of_mem_firsts ho⟩
    obtain ⟨o', ho', _, hsource⟩ := exists_first hc.operations_agree hmem
    rw [← hc.operations] at ho'
    refine ⟨o', ho', hprint.operation (hoperation o hmem) (hoperation o' ?_) hsource⟩
    exact mem_of_mem_firsts (hc.operations ▸ ho')
  · intro f hf
    have hmem := List.mem_flatMap.mpr ⟨d, hd, mem_of_mem_firsts hf⟩
    obtain ⟨f', hf', hname, hsource⟩ := exists_first hc.fragments_agree hmem
    refine ⟨f', hc.perm_fragments.mem_iff.mpr hf', hname, ?_⟩
    exact hprint.fragment (hfragment f hmem) (hfragment f' (mem_of_mem_firsts hf')) hsource
  · intro f hf hsame
    -- documents from one file hold the same definitions
    obtain ⟨e, he, hfe⟩ := List.mem_flatMap.mp (mem_of_mem_firsts (hc.perm_fragments.mem_iff.mp hf))
    obtain ⟨hfile, hdefinition⟩ := Document.definition_mem_of_mem_fragments hfe
    rw [hfile] at hsame
    rw [(hfiles e he).definitions_eq (hfiles d hd) hsame] at hdefinition
    have hown : ⟨d.location, f.definition⟩ ∈ d.fragments :=
        List.mem_filterMap.mpr ⟨_, hdefinition, rfl⟩
    exact mem_names_firsts.mpr (List.mem_map.mpr ⟨_, hown, rfl⟩)

end Project

end Composables
