import Composables.Proofs.Collection.Follow
import Composables.Proofs.Layout.Blocks
import Mathlib.Data.List.Pairwise

/-
  What a document's module is linked with. Of documents that share nothing each can be collected
  with the fragments of the others: whatever is spread then stands for a fragment, following spreads
  comes to an end, and each imported fragment is the constant of one other module (`linked`).
-/

namespace Composables.Layout

variable {ds : List Document} {d e : Document} {c part : Collection} {extension : String}
  {jsExtension : Bool} {f g : Fragment}

/-- The module of a document declares the constant of a fragment, in each mode in which constants
are declared at all. The text of the module has the declaration as a block, with the word `export`
in front of it unless the options say otherwise. -/
def Publishes (c : Collection) (extension : String) (jsExtension : Bool) (d : Document)
    (name : String) : Prop :=
  ∃ part, Collection.ofDocuments [d] (importedFor d.location c extension jsExtension) = .ok part ∧
    ∀ options : Options, options.documentMode.isInline →
      ∃ m, part.generate options [d.location] = .ok m ∧
        (∀ schema, c.validate schema = .ok () → jsExtension = !options.legacyImports →
          generate schema options c extension d = .ok m) ∧
        ∃ k ∈ m.constants, k.name = options.naming.fragmentConstant name ∧
          (k.exported ↔ options.noExport = false) ∧
          k.render ∈ m.blocks ∧ k.render.toList <:+: m.render.toList ∧
          k.render = (if options.noExport then "" else "export ") ++ "const " ++
            options.naming.fragmentConstant name ++ " = " ++ k.value.render ++ ";"

/-- The collection of one document fits those of the others. -/
structure Linked (ds : List Document) (c : Collection) (extension : String) (jsExtension : Bool)
    (d : Document) (part : Collection) : Prop where
  /-- Whatever its fragments spread, own or imported, stands for a fragment. -/
  resolves : ∀ f ∈ part.all, ∀ s ∈ f.dependencies, (part.fragment? s).isSome
  acyclic : Acyclic part.Spreads
  /-- Following spreads without a bound comes to an end, with the reachable fragments. -/
  ends : ∀ names found, part.Follows [] names found ↔ found = part.reachable names
  /-- Each imported fragment is declared by exactly one document, which is another one, and
  imported from its module. -/
  declared : ∀ i ∈ part.imported, ∃ e ∈ ds, e.location.same d.location = false ∧
    i.fragment ∈ e.fragments ∧ (∀ e' ∈ ds, i.name ∈ e'.fragments.map Fragment.name → e' = e) ∧
    i.module =
      specifier (outputPath d.location extension) (outputPath e.location extension) jsExtension ∧
    Publishes c extension jsExtension e i.name

/-! ## Where fragments are declared -/

/-- A fragment of a collection is declared by one of the documents. -/
theorem exists_declaring {offered : List ImportedFragment} (hc : Collects ds offered c)
    (hf : f ∈ c.fragments) : ∃ e ∈ ds, f ∈ e.fragments ∧ f.file = e.location := by
  have hmem := mem_of_mem_firsts (hc.perm_fragments.mem_iff.mp hf)
  obtain ⟨e, he, hfe⟩ := List.mem_flatMap.mp hmem
  exact ⟨e, he, hfe, (Document.definition_mem_of_mem_fragments hfe).1⟩

namespace Separate

/-- A name is declared by one document only. -/
theorem eq_of_declared (h : Separate ds) (hd : d ∈ ds) (he : e ∈ ds) (hf : f ∈ d.fragments)
    (hg : g ∈ e.fragments) (hname : f.name = g.name) : d = e := by
  by_contra hne
  have : Std.Symm fun d e : Document =>
      ∀ f ∈ d.fragments, ∀ g ∈ e.fragments, f.name ≠ g.name :=
    ⟨fun _ _ h f hf g hg => (h g hg f hf).symm⟩
  exact h.fragments.forall hd he hne f hf g hg hname

/-- The fragments of a document are in its collection. -/
theorem mem_part (h : Separate ds) (hc : Collects ds [] c) (he : e ∈ ds) (hf : f ∈ c.fragments)
    (hfile : f.file = e.location) {offered : List ImportedFragment}
    (hpart : Collects [e] offered part) : f ∈ part.fragments := by
  have hsame : f.file.same e.location = true := by rw [hfile, Path.same_refl]
  have hown := (h.perm_filter hc he).mem_iff.mp (List.mem_filter.mpr ⟨hf, hsame⟩)
  exact (part_fragments hpart).mem_iff.mpr hown

/-! ## The collection of one document -/

/-- A name stands for the same fragment in the collection of one document as in that of all. -/
theorem fragment?_eq (h : Separate ds) (hc : Collects ds [] c) (hd : d ∈ ds)
    (hpart : Collects [d] (importedFor d.location c extension jsExtension) part) (n : String) :
    part.fragment? n = c.fragment? n := by
  have hperm := h.all_perm hc hd hpart
  rw [Collection.fragment?_eq_find?, Collection.fragment?_eq_find?,
    Collection.all_eq_fragments hc.imported]
  exact find?_perm hperm ((hperm.map Fragment.name).nodup_iff.mpr hc.nodup_fragments) n

theorem resolves (h : Separate ds) (hc : Collects ds [] c) (hd : d ∈ ds)
    (hpart : Collects [d] (importedFor d.location c extension jsExtension) part)
    (hf : f ∈ part.all) {s : String} (hs : s ∈ f.dependencies) : (part.fragment? s).isSome := by
  have hmem : f ∈ c.fragments := (h.all_perm hc hd hpart).mem_iff.mp hf
  rw [h.fragment?_eq hc hd hpart, Collection.fragment?_isSome]
  exact hc.arranged.mem hmem hs

/-- The spreads among a document's fragments and those it imports are spreads of the whole
collection, which has no cycle. -/
theorem acyclic_part (h : Separate ds) (hc : Collects ds [] c) (hd : d ∈ ds)
    (hpart : Collects [d] (importedFor d.location c extension jsExtension) part) :
    Acyclic part.Spreads := by
  refine hc.acyclic.of_map id ?_
  rintro a b ⟨f, hf, hb⟩
  obtain rfl := Collection.name_of_fragment? hf
  have hall : f ∈ part.all := by
    rw [Collection.fragment?_eq_find?] at hf
    exact List.mem_of_find?_eq_some hf
  exact ⟨f, (h.all_perm hc hd hpart).mem_iff.mp hall, rfl, hb⟩

/-! ## The modules of the others -/

/-- The module of a document has the constants of the fragments that it declares. -/
theorem publishes (h : Separate ds) (hc : Collects ds [] c) (he : e ∈ ds) (hf : f ∈ c.fragments)
    (hfile : f.file = e.location) : Publishes c extension jsExtension e f.name := by
  obtain ⟨part, hpart⟩ : ∃ part,
      Collects [e] (importedFor e.location c extension jsExtension) part :=
    exists_collects hc he (h.restates hc he)
  refine ⟨part, Collection.ofDocuments_eq_ok.mpr hpart, ?_⟩
  intro options hinline
  obtain ⟨m, hm⟩ : ∃ m, part.generate options [e.location] = .ok m := part.exists_generate hinline
  refine ⟨m, hm, ?_, ?_⟩
  · rintro schema hvalid rfl
    rw [generate_of_collects hpart (validate_part (h.restates hc he) hvalid hpart), hm]
  · obtain ⟨_, _, hmakes⟩ := Collection.makes_of_generate hm
    have hk := Collection.mem_constants_of_fragment hinline (h.mem_part hc he hf hfile hpart)
    have hblock := Module.render_mem_blocks (hmakes.constants ▸ hk)
    exact ⟨_, hmakes.constants ▸ hk, rfl, by simp [Collection.fragmentConstant], hblock,
      Module.infix_of_mem_blocks hblock, Collection.render_of_mem_constants hk⟩

theorem declared (h : Separate ds) (hc : Collects ds [] c) (hd : d ∈ ds)
    (hpart : Collects [d] (importedFor d.location c extension jsExtension) part)
    {i : ImportedFragment} (hi : i ∈ part.imported) :
    ∃ e ∈ ds, e.location.same d.location = false ∧ i.fragment ∈ e.fragments ∧
      (∀ e' ∈ ds, i.name ∈ e'.fragments.map Fragment.name → e' = e) ∧
      i.module =
        specifier (outputPath d.location extension) (outputPath e.location extension) jsExtension ∧
      Publishes c extension jsExtension e i.name := by
  rw [h.imported_eq hc hd hpart] at hi
  obtain ⟨⟨hmem, hother⟩, hmodule⟩ := mem_importedFor.mp hi
  obtain ⟨e, he, hfe, hfile⟩ := exists_declaring hc hmem
  rw [hfile] at hother hmodule
  refine ⟨e, he, hother, hfe, ?_, hmodule, h.publishes hc he hmem hfile⟩
  intro e' he' hname
  obtain ⟨g, hg, hgname⟩ := List.mem_map.mp hname
  exact h.eq_of_declared he' he hg hfe hgname

end Separate

/-- Each document of a collection can be collected by itself with the fragments of the others, and
what comes of it is linked with their modules. -/
theorem linked (hsep : Separate ds) (hc : Collection.ofDocuments ds [] = .ok c) (hd : d ∈ ds)
    (extension : String) (jsExtension : Bool) :
    ∃ part,
      Collection.ofDocuments [d] (importedFor d.location c extension jsExtension) = .ok part ∧
      Linked ds c extension jsExtension d part := by
  have hcollects := Collection.ofDocuments_eq_ok.mp hc
  obtain ⟨part, hpart⟩ : ∃ part,
      Collects [d] (importedFor d.location c extension jsExtension) part :=
    exists_collects hcollects hd (hsep.restates hcollects hd)
  have hacyclic := hsep.acyclic_part hcollects hd hpart
  refine ⟨part, Collection.ofDocuments_eq_ok.mpr hpart, ?_⟩
  constructor
  case resolves => exact fun f hf s hs => hsep.resolves hcollects hd hpart hf hs
  case acyclic => exact hacyclic
  case ends => exact fun names found => Collection.follows_iff hacyclic
  case declared => exact fun i hi => hsep.declared hcollects hd hpart hi

/-- The query of the menu reaches one fragment through another; both come from other modules. -/
theorem linked_menu : Separate menu ∧ ∃ c d part,
    Collection.ofDocuments menu [] = .ok c ∧ d ∈ menu ∧
    Collection.ofDocuments [d] (importedFor d.location c ".ts" true) = .ok part ∧
    part.imported.map (fun i => (i.name, i.module)) =
      [("Price", "./price.js"), ("Dish", "./dish.js")] ∧
    Linked menu c ".ts" true d part := by
  have hsep : Separate menu := ⟨by decide +kernel, by decide +kernel, by decide +kernel⟩
  obtain ⟨c, hc⟩ : ∃ c, Collection.ofDocuments menu [] = .ok c := ⟨_, rfl⟩
  have hd : menu.head (by decide) ∈ menu := List.head_mem _
  obtain ⟨part, hpart, hlinked⟩ := linked hsep hc hd ".ts" true
  refine ⟨hsep, c, _, part, hc, hd, hpart, ?_, hlinked⟩
  obtain rfl := Except.ok.inj hc
  obtain rfl := Except.ok.inj hpart
  decide +kernel

end Composables.Layout
