import Composables.Proofs.Layout.Linked

/-
  Which modules import from each other. The module of a document imports constants from those of the
  documents whose fragments it draws on (`importsFrom_iff`). So modules import from each other in a
  circle just if documents draw on each other in a circle, and if they do not the modules can be
  loaded one after another, each behind those it imports from (`acyclic_imports`).
-/

namespace Composables

/-- A line in front of the blocks imports a constant from a module. -/
def Module.ImportsFrom (m : Module) (module constant : String) : Prop :=
  ∃ constants, Import.fragments module constants ∈ m.imports ∧ constant ∈ constants

/-- The names that the definitions of a document spread. What is defined again does not count. -/
def Document.spreads (d : Document) : List String :=
  (firsts d.fragments).flatMap Fragment.dependencies ++
    (firsts d.operations).flatMap Operation.spreads

/-- The modes in which constants refer to those of the fragments that they spread. -/
def referringModes : List DocumentMode := [.graphQLTag, .string, .documentNodeImportFragments]

namespace Collection

variable {c : Collection} {options : Options} {sources : List Path} {m : Module}

/-- Where constants refer to those of fragments, a module imports the constants of the imported
fragments that are spread, and no others. -/
theorem importsFrom_iff {ds : List Document} {offered : List ImportedFragment}
    (hc : Collects ds offered c) (hmode : options.documentMode ∈ referringModes)
    (hm : c.generate options sources = .ok m) {module constant : String} :
    m.ImportsFrom module constant ↔
      ∃ f ∈ c.imported, f.name ∈ c.spreads ∧ f.module = module ∧
        options.naming.fragmentConstant f.name = constant := by
  obtain ⟨is, his, hmakes⟩ := makes_of_generate hm
  have hmem : ∀ constants, Import.fragments module constants ∈ m.imports ↔
      Import.fragments module constants ∈ c.fragmentImports options.naming := by
    intro constants
    rw [hmakes.mem_imports_of_constants rfl]
    rcases documentImports_cases his with ⟨_, rfl⟩ | ⟨hother, _⟩ | ⟨_, rfl⟩ | ⟨_, rfl⟩ |
      ⟨hother, _⟩ | ⟨hother, _⟩
    · rw [List.mem_append, or_iff_right]
      split <;> simp
    · simp [hother, referringModes] at hmode
    · rw [List.mem_append, or_iff_right]
      split <;> simp
    · exact Iff.rfl
    · simp [hother, referringModes] at hmode
    · simp [hother, referringModes] at hmode
  rw [Module.ImportsFrom, exists_congr fun constants => and_congr_left fun _ => hmem constants,
    fragmentImports_constants]
  refine exists_congr fun f => and_congr_right fun hf => and_congr_left fun _ => ?_
  rw [mem_referenced]
  exact and_iff_left (hc.isImported (List.mem_map_of_mem hf))

end Collection

namespace Layout

variable {ds : List Document} {d e : Document} {c part : Collection} {extension : String}
  {jsExtension : Bool} {schema : Schema} {options : Options} {m : Module} {module constant : String}

/-! ## Documents that draw on others -/

/-- A document spreads a fragment that it does not declare and that a collection has from another
document. -/
def Takes (c : Collection) (d e : Document) (s : String) : Prop :=
  s ∈ d.spreads ∧ s ∉ d.fragments.map Fragment.name ∧
    ∃ f ∈ c.fragments, f.name = s ∧ f.file.same e.location = true

instance (c : Collection) (d e : Document) (s : String) : Decidable (Takes c d e s) :=
  inferInstanceAs (Decidable (_ ∧ _ ∧ _))

/-- The first of two documents takes a fragment from the second. -/
def Draws (ds : List Document) (c : Collection) (d e : Document) : Prop :=
  d ∈ ds ∧ e ∈ ds ∧ ∃ s, Takes c d e s

/-- Documents are told apart by their files. -/
theorem eq_of_same (hlocations : ds.Pairwise fun d e => d.location.same e.location = false)
    (hd : d ∈ ds) (he : e ∈ ds) (hsame : d.location.same e.location = true) : d = e := by
  by_contra hne
  have : Std.Symm fun d e : Document => d.location.same e.location = false :=
    ⟨fun d e h => by rwa [same_comm]⟩
  rw [hlocations.forall hd he hne] at hsame
  cases hsame

/-- What a collection has from the file of a document is declared by that document. -/
theorem declared_of_same (hlocations : ds.Pairwise fun d e => d.location.same e.location = false)
    (hc : Collects ds [] c) (he : e ∈ ds) {f : Fragment} (hf : f ∈ c.fragments)
    (hsame : f.file.same e.location = true) : f ∈ e.fragments ∧ f.file = e.location := by
  obtain ⟨e', he', hfe, hfile⟩ := exists_declaring hc hf
  obtain rfl : e' = e := eq_of_same hlocations he' he (hfile ▸ hsame)
  exact ⟨hfe, hfile⟩

/-! ## What a module imports -/

/-- The module of the second document, as that of the first imports it. -/
def moduleOf (options : Options) (extension : String) (d e : Document) : String :=
  specifier (outputPath d.location extension) (outputPath e.location extension)
    (!options.legacyImports)

theorem exists_part (hm : generate schema options c extension d = .ok m) :
    ∃ part, Collects [d] (importedFor d.location c extension (!options.legacyImports)) part ∧
      part.generate options [d.location] = .ok m := by
  obtain ⟨part, hpart, hrest⟩ := Outcome.bind_eq_ok.mp hm
  obtain ⟨_, _, hm⟩ := Outcome.bind_eq_ok.mp hrest
  exact ⟨part, Collection.ofDocuments_eq_ok.mp hpart, hm⟩

theorem spreads_part {offered : List ImportedFragment} (hpart : Collects [d] offered part) :
    part.spreads.Perm d.spreads := by
  rw [Collection.spreads, Document.spreads, part_operations hpart]
  exact ((part_fragments hpart).flatMap_right _).append_right _

/-- What a document imports, of the fragments of a collection: those that come from other files and
have no name that it declares. -/
theorem mem_imported_part {i : ImportedFragment}
    (hpart : Collects [d] (importedFor d.location c extension jsExtension) part) :
    i ∈ part.imported ↔ (i.fragment ∈ c.fragments ∧ i.fragment.file.same d.location = false) ∧
      i.module = specifier (outputPath d.location extension)
        (outputPath i.fragment.file extension) jsExtension ∧
      i.name ∉ d.fragments.map Fragment.name := by
  have hnames : i.name ∈ (firsts d.fragments).map Fragment.name ↔
      i.name ∈ d.fragments.map Fragment.name := mem_names_firsts
  rw [hpart.imported, List.mem_filter, mem_importedFor, and_assoc, List.flatMap_singleton, ← hnames]
  refine and_congr_right fun _ => and_congr_right fun _ => ?_
  simp

/-- The module of a document imports the constant of each fragment that the document takes from
another one, from the module of that one, and no other constants. -/
theorem importsFrom_iff (hlocations : ds.Pairwise fun d e => d.location.same e.location = false)
    (hc : Collects ds [] c) (hmode : options.documentMode ∈ referringModes) (hd : d ∈ ds)
    (hm : generate schema options c extension d = .ok m) :
    m.ImportsFrom module constant ↔ ∃ e ∈ ds, ∃ s, Takes c d e s ∧
      moduleOf options extension d e = module ∧ options.naming.fragmentConstant s = constant := by
  obtain ⟨part, hpart, hm⟩ := exists_part hm
  rw [Collection.importsFrom_iff hpart hmode hm]
  constructor
  · rintro ⟨i, hi, hspread, rfl, rfl⟩
    obtain ⟨⟨hmem, _⟩, hmodule, hnew⟩ := (mem_imported_part hpart).mp hi
    obtain ⟨e, he, _, hfile⟩ := exists_declaring hc hmem
    refine ⟨e, he, i.name, ⟨?_, hnew, i.fragment, hmem, rfl, ?_⟩, ?_, rfl⟩
    · exact (spreads_part hpart).mem_iff.mp hspread
    · rw [hfile, Path.same_refl]
    · rw [hmodule, hfile]
      rfl
  · rintro ⟨e, he, _, ⟨hs, hnew, f, hf, rfl, hsame⟩, rfl, rfl⟩
    obtain ⟨_, hfile⟩ := declared_of_same hlocations hc he hf hsame
    have hother : f.file.same d.location = false := by
      -- a fragment of the document's own file would be declared in it
      rw [← Bool.not_eq_true]
      intro hown
      exact hnew (List.mem_map_of_mem (declared_of_same hlocations hc hd hf hown).1)
    have himported : ⟨f, moduleOf options extension d e⟩ ∈ part.imported := by
      refine (mem_imported_part hpart).mpr ⟨⟨hf, hother⟩, ?_, hnew⟩
      rw [moduleOf, hfile]
    exact ⟨_, himported, (spreads_part hpart).mem_iff.mpr hs, rfl, rfl⟩

/-- A fragment that is taken from a document has its constant in the module of that document. -/
theorem declares_of_takes (hlocations : ds.Pairwise fun d e => d.location.same e.location = false)
    (hc : Collects ds [] c) (he : e ∈ ds) {s : String} (htakes : Takes c d e s)
    (hinline : options.documentMode.isInline)
    (hm : generate schema options c extension e = .ok m) :
    ∃ k ∈ m.constants, k.name = options.naming.fragmentConstant s := by
  obtain ⟨_, _, f, hf, rfl, hsame⟩ := htakes
  obtain ⟨part, hpart, hm⟩ := exists_part hm
  have hname : f.name ∈ (firsts e.fragments).map Fragment.name :=
    mem_names_firsts.mpr
      (List.mem_map_of_mem (declared_of_same hlocations hc he hf hsame).1)
  obtain ⟨g, hg, hgname⟩ := List.mem_map.mp hname
  obtain ⟨_, _, hmakes⟩ := Collection.makes_of_generate hm
  refine ⟨part.fragmentConstant options g, ?_, congrArg options.naming.fragmentConstant hgname⟩
  rw [hmakes.constants]
  exact Collection.mem_constants_of_fragment hinline ((part_fragments hpart).mem_iff.mpr hg)

/-! ## Circles and orders -/

/-- The module of the first document imports a constant from that of the second. -/
def Imports (schema : Schema) (options : Options) (c : Collection) (extension : String)
    (ds : List Document) (d e : Document) : Prop :=
  d ∈ ds ∧ e ∈ ds ∧ ∃ m constant, generate schema options c extension d = .ok m ∧
    m.ImportsFrom (moduleOf options extension d e) constant

/-- No module imports two others under one name. -/
def ToldApart (options : Options) (extension : String) (ds : List Document) : Prop :=
  ∀ d ∈ ds, ∀ e ∈ ds, ∀ e' ∈ ds,
    moduleOf options extension d e = moduleOf options extension d e' → e = e'

/-- Each constant that the module of a document imports is declared by that of one of the documents
in front. -/
def Initialised (schema : Schema) (options : Options) (c : Collection) (extension : String)
    (front : List Document) (d : Document) : Prop :=
  ∀ m, generate schema options c extension d = .ok m →
    ∀ module constant, m.ImportsFrom module constant →
      ∃ e ∈ front, module = moduleOf options extension d e ∧
        ∀ m', generate schema options c extension e = .ok m' →
          ∃ k ∈ m'.constants, k.name = constant

/-- A module imports from that of each document from which its own takes a fragment, and from
whichever else it imports under the same name. -/
theorem imports_of_takes {e' : Document} {s : String}
    (hlocations : ds.Pairwise fun d e => d.location.same e.location = false)
    (hc : Collects ds [] c) (hmode : options.documentMode ∈ referringModes) (hd : d ∈ ds)
    (he : e ∈ ds) (he' : e' ∈ ds) (htakes : Takes c d e s)
    (hmodule : moduleOf options extension d e = moduleOf options extension d e')
    (hm : generate schema options c extension d = .ok m) :
    Imports schema options c extension ds d e' :=
  ⟨hd, he', m, _, hm,
    (importsFrom_iff hlocations hc hmode hd hm).mpr ⟨e, he, s, htakes, hmodule, rfl⟩⟩

/-- Modules import from each other only where documents draw on each other, and everywhere there. -/
theorem imports_iff (hlocations : ds.Pairwise fun d e => d.location.same e.location = false)
    (hc : Collects ds [] c) (hmode : options.documentMode ∈ referringModes)
    (happart : ToldApart options extension ds) :
    Imports schema options c extension ds d e ↔
      Draws ds c d e ∧ ∃ m, generate schema options c extension d = .ok m := by
  constructor
  · rintro ⟨hd, he, m, constant, hm, himports⟩
    obtain ⟨e', he', s, htakes, hmodule, _⟩ :=
      (importsFrom_iff hlocations hc hmode hd hm).mp himports
    obtain rfl := happart d hd e' he' e he hmodule
    exact ⟨⟨hd, he, s, htakes⟩, m, hm⟩
  · rintro ⟨⟨hd, he, s, htakes⟩, m, hm⟩
    exact imports_of_takes hlocations hc hmode hd he he htakes rfl hm

theorem isInline_of_refers (hmode : options.documentMode ∈ referringModes) :
    options.documentMode.isInline := by
  simp only [referringModes, List.mem_cons, List.not_mem_nil, or_false] at hmode
  rcases hmode with h | h | h <;> rw [h] <;> rfl

/-- If documents draw on each other in no circle, their modules import from each other in none and
can be loaded one after another, each behind those it imports from. Where every document gets its
module, documents that draw on each other in a circle have modules that import from each other in
one. -/
theorem acyclic_imports (hlocations : ds.Pairwise fun d e => d.location.same e.location = false)
    (hc : Collection.ofDocuments ds [] = .ok c) (hmode : options.documentMode ∈ referringModes)
    (happart : ToldApart options extension ds) :
    (Acyclic (Draws ds c) → Acyclic (Imports schema options c extension ds) ∧
      ∃ order : List Document, order.Perm ds ∧
        Supplied (Initialised schema options c extension) order) ∧
    ((∀ d ∈ ds, ∃ m, generate schema options c extension d = .ok m) →
      Acyclic (Imports schema options c extension ds) → Acyclic (Draws ds c)) := by
  have hcollects := Collection.ofDocuments_eq_ok.mp hc
  constructor
  · intro hdraws
    constructor
    · exact hdraws.of_map id fun d e h => ((imports_iff hlocations hcollects hmode happart).mp h).1
    · obtain ⟨order, hperm, hsupplied⟩ := hdraws.exists_order ds
      refine ⟨order, hperm, hsupplied.imp fun front d hd hfront m hm module constant himports => ?_⟩
      have hd : d ∈ ds := hperm.mem_iff.mp hd
      obtain ⟨e, he, s, htakes, rfl, rfl⟩ :=
        (importsFrom_iff hlocations hcollects hmode hd hm).mp himports
      refine ⟨e, hfront e he ⟨hd, he, s, htakes⟩, rfl, fun m' hm' => ?_⟩
      exact declares_of_takes hlocations hcollects he htakes (isInline_of_refers hmode) hm'
  · intro hmodules himports
    exact himports.of_map id fun d e h =>
      (imports_iff hlocations hcollects hmode happart).mpr ⟨h, hmodules d h.1⟩

/-- The modes, with all other options as they are when nothing is said. -/
def referring : List Options :=
  ["graphQLTag", "string", "documentNodeImportFragments"].map fun mode =>
    .ofMembers [("documentMode", .string mode)]

theorem refers_of_mem (hoptions : options ∈ referring) : options.documentMode ∈ referringModes := by
  revert options
  decide +kernel

/-- In the menu fragments are taken from documents further down only. -/
theorem acyclic_draws_menu (hc : Collection.ofDocuments menu [] = .ok c) :
    Acyclic (Draws menu c) := by
  have hdown : ∀ d ∈ menu, ∀ e ∈ menu, ∀ s ∈ d.spreads, ∀ f ∈ c.fragments, f.name = s →
      f.file.same e.location = true →
      (menu.reverse.map Document.location).idxOf e.location <
        (menu.reverse.map Document.location).idxOf d.location := by
    obtain rfl := Except.ok.inj hc
    decide +kernel
  refine Acyclic.of_rank (fun d => (menu.reverse.map Document.location).idxOf d.location) ?_
  rintro d e ⟨hd, he, s, hs, _, f, hf, hname, hsame⟩ _
  exact hdown d hd e he s hs f hf hname hsame

theorem acyclic_imports_menu : ∃ c, Collection.ofDocuments menu [] = .ok c ∧
    ∀ options ∈ referring, ToldApart options ".ts" menu ∧ Acyclic (Draws menu c) ∧
      Acyclic (Imports menuSchema options c ".ts" menu) ∧
      ∃ order : List Document, order.Perm menu ∧
        Supplied (Initialised menuSchema options c ".ts") order := by
  have hlocations : menu.Pairwise fun d e => d.location.same e.location = false := by
    decide +kernel
  obtain ⟨c, hc⟩ : ∃ c, Collection.ofDocuments menu [] = .ok c := ⟨_, rfl⟩
  have hdraws := acyclic_draws_menu hc
  have hsame : ∀ options ∈ referring, ∀ d ∈ menu, ∀ e ∈ menu, ∀ e' ∈ menu,
      moduleOf options ".ts" d e = moduleOf options ".ts" d e' →
        e.location.same e'.location = true := by decide +kernel
  refine ⟨c, hc, fun options hoptions => ?_⟩
  have happart : ToldApart options ".ts" menu := fun d hd e he e' he' hmodule =>
    eq_of_same hlocations he he' (hsame options hoptions d hd e he e' he' hmodule)
  obtain ⟨hacyclic, horder⟩ :=
    (acyclic_imports hlocations hc (refers_of_mem hoptions) happart).1 hdraws
  exact ⟨happart, hdraws, hacyclic, horder⟩

theorem Separate.imports (hsep : Separate ds) (hc : Collects ds [] c)
    (hvalid : c.validate schema = .ok ()) (hmode : options.documentMode ∈ referringModes)
    (hd : d ∈ ds) (he : e ∈ ds) {e' : Document} (he' : e' ∈ ds) {s : String}
    (htakes : Takes c d e s)
    (hmodule : moduleOf options extension d e = moduleOf options extension d e') :
    Imports schema options c extension ds d e' := by
  obtain ⟨m, hm, _⟩ := exists_module hsep hc hvalid (isInline_of_refers hmode) hd
  exact imports_of_takes hsep.locations hc hmode hd he he' htakes hmodule hm

/-- Documents that share nothing and are accepted, but whose modules import from each other in a
circle in each of the modes. -/
def Entangled (schema : Schema) (extension : String) (ds : List Document) : Prop :=
  Separate ds ∧ ∃ c, Collection.ofDocuments ds [] = .ok c ∧ c.validate schema = .ok () ∧
    ∀ options ∈ referring, ¬ Acyclic (Imports schema options c extension ds)

/-- Two documents that take fragments from each other, though no fragment spreads itself. -/
def circle : List Document :=
  [⟨⟨"a.graphql"⟩, [.fragment (.bare "A" ["B"]), .fragment (.bare "C" [])]⟩,
    ⟨⟨"b.graphql"⟩, [.fragment (.bare "B" []), .fragment (.bare "D" ["C"])]⟩]

theorem entangled_circle : Entangled menuSchema ".ts" circle := by
  have hsep : Separate circle := ⟨by decide +kernel, by decide +kernel, by decide +kernel⟩
  obtain ⟨c, hc⟩ : ∃ c, Collection.ofDocuments circle [] = .ok c := ⟨_, rfl⟩
  have hvalid : c.validate menuSchema = .ok () := by
    obtain rfl := Except.ok.inj hc
    rfl
  have htakes : Takes c circle[0] circle[1] "B" ∧ Takes c circle[1] circle[0] "C" := by
    obtain rfl := Except.ok.inj hc
    decide +kernel
  refine ⟨hsep, c, hc, hvalid, fun options hoptions hacyclic => ?_⟩
  have hcollects := Collection.ofDocuments_eq_ok.mp hc
  have hmode := refers_of_mem hoptions
  have hthere : Imports menuSchema options c ".ts" circle circle[0] circle[1] :=
    hsep.imports hcollects hvalid hmode (by simp) (by simp) (by simp) htakes.1 rfl
  have hback : Imports menuSchema options c ".ts" circle circle[1] circle[0] :=
    hsep.imports hcollects hvalid hmode (by simp) (by simp) (by simp) htakes.2 rfl
  exact hacyclic _ (.tail (.single hthere) hback)

/-- Two documents whose modules have one name. -/
def twins : List Document :=
  [⟨⟨"q.gql"⟩, [.operation (.bare "Q" ["F"])]⟩, ⟨⟨"q.graphql"⟩, [.fragment (.bare "F" [])]⟩]

theorem entangled_twins : Entangled menuSchema ".ts" twins := by
  have hsep : Separate twins := ⟨by decide +kernel, by decide +kernel, by decide +kernel⟩
  obtain ⟨c, hc⟩ : ∃ c, Collection.ofDocuments twins [] = .ok c := ⟨_, rfl⟩
  have hvalid : c.validate menuSchema = .ok () := by
    obtain rfl := Except.ok.inj hc
    rfl
  have htakes : Takes c twins[0] twins[1] "F" := by
    obtain rfl := Except.ok.inj hc
    decide +kernel
  have hmodule : ∀ options ∈ referring,
      moduleOf options ".ts" twins[0] twins[1] = moduleOf options ".ts" twins[0] twins[0] := by
    decide +kernel
  refine ⟨hsep, c, hc, hvalid, fun options hoptions hacyclic => ?_⟩
  have hself : Imports menuSchema options c ".ts" twins twins[0] twins[0] :=
    hsep.imports (Collection.ofDocuments_eq_ok.mp hc) hvalid (refers_of_mem hoptions) (by simp)
      (by simp) (by simp) htakes (hmodule options hoptions)
  exact hacyclic _ (.single hself)

/-- Neither of the conditions can be left out: the modules of the first documents import from each
other, and with the other documents the first imports from itself. -/
theorem circle_imports : Entangled menuSchema ".ts" circle ∧ Entangled menuSchema ".ts" twins :=
  ⟨entangled_circle, entangled_twins⟩

end Layout

end Composables
