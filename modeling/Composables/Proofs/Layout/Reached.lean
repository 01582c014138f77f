import Composables.Proofs.Layout.LoadOrder

/-
  What a document's module depends on. Of all that is collected beside a document only the fragments
  that its definitions reach can be seen in its module. With another collection that has the same
  ones the content is the same, and the lines in front differ at most in how they order and group
  the fragments that they import (`matches_of_reached`).
-/

namespace Composables

open Relation (ReflTransGen)

/-! ## Imports that are grouped otherwise -/

/-- The imports of constants by modules. -/
def fragmentsImports (groups : List (String × List String)) : List Import :=
  groups.map fun g => .fragments g.1 g.2

theorem grouped_iff {groups : List (String × List String)} {module constant : String} :
    Grouped groups module constant ↔ ∃ constants,
      .fragments module constants ∈ fragmentsImports groups ∧ constant ∈ constants := by
  simp [Grouped, fragmentsImports]

/-- Modules with one content. Their lines in front are the same, but for those that import
fragments: these name the same constants of the same modules. -/
structure Module.Matches (m m' : Module) : Prop where
  content : m.content = m'.content
  importsFrom : ∀ module constant,
    m.ImportsFrom module constant ↔ m'.ImportsFrom module constant
  prepend : ∃ front groups groups' back,
    m.prepend = Distinct.ofList ((front ++ fragmentsImports groups ++ back).map Import.render) ∧
    m'.prepend = Distinct.ofList ((front ++ fragmentsImports groups' ++ back).map Import.render) ∧
    ∀ module constant, Grouped groups module constant ↔ Grouped groups' module constant

theorem Module.matches_of_imports {m m' : Module} {front back : List Import}
    {groups groups' : List (String × List String)} (hconstants : m.constants = m'.constants)
    (hfunctions : m.functions = m'.functions)
    (himports : m.imports = front ++ fragmentsImports groups ++ back)
    (himports' : m'.imports = front ++ fragmentsImports groups' ++ back)
    (hgroups : ∀ module constant,
      Grouped groups module constant ↔ Grouped groups' module constant) :
    m.Matches m' := by
  have hfrom : ∀ {n : Module} {gs : List (String × List String)},
      n.imports = front ++ fragmentsImports gs ++ back → ∀ module constant,
      n.ImportsFrom module constant ↔ Grouped gs module constant ∨
        ∃ constants, .fragments module constants ∈ front ++ back ∧ constant ∈ constants := by
    intro n gs hn module constant
    rw [Module.ImportsFrom, hn, grouped_iff, ← exists_or]
    refine exists_congr fun constants => ?_
    rw [← or_and_right, List.mem_append, List.mem_append, List.mem_append, or_assoc, or_left_comm]
  refine ⟨?_, fun module constant => ?_, front, groups, groups', back, ?_, ?_, hgroups⟩
  · rw [content, content, blocks, blocks, hconstants, hfunctions]
  · rw [hfrom himports, hfrom himports', hgroups]
  · rw [prepend, himports]
  · rw [prepend, himports']

namespace Collection

variable {c c' : Collection} {options : Options} {sources : List Path} {m : Module} {e : Error}

/-- Collections that are the same as far as their own definitions reach. -/
structure SameReach (c c' : Collection) : Prop where
  operations : c.operations = c'.operations
  fragments : c.fragments = c'.fragments
  reachable : ∀ ns ⊆ c.spreads, c.reachable ns = c'.reachable ns
  imported : ∀ n ∈ c.spreads, ∀ module,
    (∃ f ∈ c.imported, f.name = n ∧ f.module = module) ↔
      ∃ f ∈ c'.imported, f.name = n ∧ f.module = module

/-- The constants that are imported, by the modules they come from. -/
def importGroups (c : Collection) (n : Naming) : List (String × List String) :=
  groupConstants ((c.imported.filter fun f => c.referenced.contains f.name).map fun f =>
    (f.module, n.fragmentConstant f.name))

namespace SameReach

theorem spreads_eq (h : SameReach c c') : c.spreads = c'.spreads := by
  rw [spreads, spreads, h.operations, h.fragments]

theorem referenced_eq (h : SameReach c c') : c.referenced = c'.referenced := by
  rw [referenced, referenced, ← h.spreads_eq]
  refine List.filter_congr fun n hn => ?_
  have hany : (c.imported.any fun f => f.name == n) = c'.imported.any fun f => f.name == n := by
    rw [Bool.eq_iff_iff, List.any_eq_true, List.any_eq_true]
    constructor
    · rintro ⟨f, hf, hname⟩
      obtain ⟨f', hf', hname', _⟩ := (h.imported n hn f.module).mp ⟨f, hf, beq_iff_eq.mp hname, rfl⟩
      exact ⟨f', hf', beq_iff_eq.mpr hname'⟩
    · rintro ⟨f, hf, hname⟩
      obtain ⟨f', hf', hname', _⟩ := (h.imported n hn f.module).mpr ⟨f, hf, beq_iff_eq.mp hname, rfl⟩
      exact ⟨f', hf', beq_iff_eq.mpr hname'⟩
  rw [isImported, isImported, h.fragments, hany]

theorem documentValue_eq (h : SameReach c c') {spreads : List String}
    (hspreads : spreads ⊆ c.spreads) (definition : Graphql.Definition) :
    c.documentValue options definition spreads = c'.documentValue options definition spreads := by
  unfold documentValue
  rw [h.reachable spreads hspreads]

theorem constants_eq (h : SameReach c c') : c.constants options = c'.constants options := by
  unfold constants
  rw [← h.fragments, ← h.operations]
  split
  · congr 1
    · refine List.map_congr_left fun f hf => ?_
      have hspreads : f.dependencies ⊆ c.spreads := fun s hs =>
        List.mem_append_left _ (List.mem_flatMap.mpr ⟨f, hf, hs⟩)
      rw [fragmentConstant, fragmentConstant, h.documentValue_eq hspreads]
    · refine List.map_congr_left fun o ho => ?_
      have hspreads : o.spreads ⊆ c.spreads := fun s hs =>
        List.mem_append_right _ (List.mem_flatMap.mpr ⟨o, ho, hs⟩)
      rw [operationConstant, operationConstant, h.documentValue_eq hspreads]
  · rfl

theorem grouped_iff (h : SameReach c c') (n : Naming) (module constant : String) :
    Grouped (c.importGroups n) module constant ↔ Grouped (c'.importGroups n) module constant := by
  rw [Composables.grouped_iff, Composables.grouped_iff]
  refine fragmentImports_constants.trans (Iff.trans ?_ fragmentImports_constants.symm)
  rw [← h.referenced_eq]
  constructor
  · rintro ⟨f, hf, hreferenced, hmodule, hconstant⟩
    obtain ⟨f', hf', hname, hmodule'⟩ :=
      (h.imported f.name (mem_referenced.mp hreferenced).1 module).mp ⟨f, hf, rfl, hmodule⟩
    exact ⟨f', hf', hname ▸ hreferenced, hmodule', hname ▸ hconstant⟩
  · rintro ⟨f, hf, hreferenced, hmodule, hconstant⟩
    obtain ⟨f', hf', hname, hmodule'⟩ :=
      (h.imported f.name (mem_referenced.mp hreferenced).1 module).mpr ⟨f, hf, rfl, hmodule⟩
    exact ⟨f', hf', hname ▸ hreferenced, hmodule', hname ▸ hconstant⟩

/-- What is imported for constants is the same, apart from the fragments. -/
theorem exists_documentImports (h : SameReach c c') (options : Options) (sources : List Path) :
    ∃ (own : Except Error (List Import)) (groups groups' : List (String × List String)),
      c.documentImports options sources = own.map (· ++ fragmentsImports groups) ∧
      c'.documentImports options sources = own.map (· ++ fragmentsImports groups') ∧
      ∀ module constant, Grouped groups module constant ↔ Grouped groups' module constant := by
  have hempty : c.isEmpty = c'.isEmpty := by rw [isEmpty, isEmpty, h.operations, h.fragments]
  have hoperations : c.hasOperations = c'.hasOperations := by
    rw [hasOperations, hasOperations, h.operations]
  have hnothing : ∀ own : Except Error (List Import),
      own = own.map (· ++ fragmentsImports []) := by
    rintro (_ | own)
    · rfl
    · exact congrArg Except.ok (List.append_nil own).symm
  have hgroups := h.grouped_iff options.naming
  unfold documentImports
  rw [← hempty, ← hoperations]
  cases options.documentMode with
  | graphQLTag =>
      exact ⟨.ok (if c.isEmpty then [] else [.tag options.tagImport]), _, _, rfl, rfl, hgroups⟩
  | documentNode => exact ⟨_, [], [], hnothing _, hnothing _, fun _ _ => Iff.rfl⟩
  | documentNodeImportFragments =>
      exact ⟨.ok (if c.isEmpty then [] else [.documentNode options.documentNodeImport]), _, _,
        rfl, rfl, hgroups⟩
  | string => exact ⟨.ok [], _, _, rfl, rfl, hgroups⟩
  | external => exact ⟨_, [], [], hnothing _, hnothing _, fun _ _ => Iff.rfl⟩

theorem generate_eq_error_iff (h : SameReach c c') :
    c.generate options sources = .error e ↔ c'.generate options sources = .error e := by
  obtain ⟨own, groups, groups', himports, himports', _⟩ := h.exists_documentImports options sources
  cases own with
  | error e' =>
      have hc : c.generate options sources = .error e' := by
        rw [generate, himports]
        rfl
      have hc' : c'.generate options sources = .error e' := by
        rw [generate, himports']
        rfl
      rw [hc, hc']
  | ok front =>
      constructor
      · intro he
        cases himports.symm.trans (Collection.generate_eq_error he)
      · intro he
        cases himports'.symm.trans (Collection.generate_eq_error he)

/-- Collections that are the same as far as they reach have matching modules. -/
theorem exists_matches (h : SameReach c c') (hm : c.generate options sources = .ok m) :
    ∃ m', c'.generate options sources = .ok m' ∧ m.Matches m' := by
  obtain ⟨own, groups, groups', himports, himports', hgroups⟩ :=
    h.exists_documentImports options sources
  obtain ⟨is, his, rfl⟩ := generate_eq_ok.mp hm
  obtain ⟨front, rfl, rfl⟩ := Outcome.map_eq_ok.mp (himports.symm.trans his)
  have hbinds : c.bindsFunctions options = c'.bindsFunctions options := by
    rw [bindsFunctions, bindsFunctions, hasOperations, hasOperations, h.operations]
  refine ⟨_, generate_eq_ok.mpr ⟨_, himports', rfl⟩, ?_⟩
  rw [← hbinds, ← h.operations]
  exact Module.matches_of_imports h.constants_eq rfl rfl rfl hgroups

end SameReach

end Collection

namespace Layout

variable {ds ds' : List Document} {d : Document} {c c' part part' : Collection}
  {extension : String} {jsExtension : Bool}

/-- A name stands for the same fragment of two collections, so a document that imports it from one
imports it from the other, out of the same module. -/
theorem exists_imported (hc : Collects ds [] c) (hc' : Collects ds' [] c')
    (hpart : Collects [d] (importedFor d.location c extension jsExtension) part)
    (hpart' : Collects [d] (importedFor d.location c' extension jsExtension) part')
    {n module : String} (hsame : c.fragment? n = c'.fragment? n)
    (h : ∃ i ∈ part.imported, i.name = n ∧ i.module = module) :
    ∃ i ∈ part'.imported, i.name = n ∧ i.module = module := by
  obtain ⟨i, hi, rfl, rfl⟩ := h
  obtain ⟨⟨hmem, hother⟩, hmodule, hnew⟩ := (mem_imported_part hpart).mp hi
  have hfound : c'.fragment? i.name = some i.fragment := by
    rw [← hsame]
    exact Collection.fragment?_of_mem hc.nodup_fragments hmem
  have himported : c'.imported = [] := hc'.imported
  have hmem' : i.fragment ∈ c'.fragments := by
    refine (Collection.mem_of_fragment? hfound).resolve_right ?_
    simp [himported]
  exact ⟨i, (mem_imported_part hpart').mpr ⟨⟨hmem', hother⟩, hmodule, hnew⟩, rfl, rfl⟩

/-- Collections of one document, made with the fragments of two collections, are the same as far as
they reach if the two are. -/
theorem sameReach_part (hsep : Separate ds) (hsep' : Separate ds') (hc : Collects ds [] c)
    (hc' : Collects ds' [] c') (hd : d ∈ ds) (hd' : d ∈ ds')
    (hsame : ∀ s ∈ d.spreads, ∀ n, ReflTransGen c.Spreads s n → c.fragment? n = c'.fragment? n)
    (hpart : Collects [d] (importedFor d.location c extension jsExtension) part)
    (hpart' : Collects [d] (importedFor d.location c' extension jsExtension) part') :
    part.SameReach part' := by
  have hspreads : ∀ n, n ∈ part.spreads ↔ n ∈ d.spreads := fun n =>
    (spreads_part hpart).mem_iff
  have hlookup : part.fragment? = c.fragment? := funext (hsep.fragment?_eq hc hd hpart)
  have hlookup' : part'.fragment? = c'.fragment? := funext (hsep'.fragment?_eq hc' hd' hpart')
  constructor
  case operations => rw [part_operations hpart, part_operations hpart']
  case fragments => exact Fragment.order_unique hpart.order hpart'.order
  case reachable =>
    intro ns hns
    refine Collection.reachable_congr (hsep.acyclic_part hc hd hpart)
      (hsep'.acyclic_part hc' hd' hpart') ?_
    intro n hn m hm
    -- the collection of one document knows what the whole one knows
    have hstep : part.Spreads = c.Spreads := by
      unfold Collection.Spreads
      rw [hlookup]
    rw [hstep] at hm
    rw [hlookup, hlookup']
    exact hsame n ((hspreads n).mp (hns hn)) m hm
  case imported =>
    intro n hn module
    have hn' := hsame n ((hspreads n).mp hn) n .refl
    constructor
    · exact exists_imported hc hc' hpart hpart' hn'
    · exact exists_imported hc' hc hpart' hpart hn'.symm

/-- The module of a document depends only on what its definitions reach. In two collections of
separate documents, whatever else these hold, in which each name that is reached from the document
stands for one and the same fragment, the document has matching modules, or none in both for one and
the same reason. -/
theorem matches_of_reached (hsep : Separate ds) (hsep' : Separate ds')
    (hc : Collection.ofDocuments ds [] = .ok c) (hc' : Collection.ofDocuments ds' [] = .ok c')
    {schema schema' : Schema} (hvalid : c.validate schema = .ok ())
    (hvalid' : c'.validate schema' = .ok ()) (hd : d ∈ ds) (hd' : d ∈ ds')
    (hsame : ∀ s ∈ d.spreads, ∀ n, ReflTransGen c.Spreads s n → c.fragment? n = c'.fragment? n)
    (options : Options) (extension : String) (jsExtension : Bool) :
    (∀ e, Composables.generate schema options (importedFor d.location c extension jsExtension)
        [d] = .error e ↔
      Composables.generate schema' options (importedFor d.location c' extension jsExtension)
        [d] = .error e) ∧
    ∀ m, Composables.generate schema options (importedFor d.location c extension jsExtension)
        [d] = .ok m →
      ∃ m', Composables.generate schema' options
        (importedFor d.location c' extension jsExtension) [d] = .ok m' ∧ m.Matches m' := by
  have hcollects := Collection.ofDocuments_eq_ok.mp hc
  have hcollects' := Collection.ofDocuments_eq_ok.mp hc'
  have hrestates := hsep.restates hcollects hd
  have hrestates' := hsep'.restates hcollects' hd'
  obtain ⟨part, hpart⟩ : ∃ part,
      Collects [d] (importedFor d.location c extension jsExtension) part :=
    exists_collects hcollects hd hrestates
  obtain ⟨part', hpart'⟩ : ∃ part',
      Collects [d] (importedFor d.location c' extension jsExtension) part' :=
    exists_collects hcollects' hd' hrestates'
  have hreach := sameReach_part hsep hsep' hcollects hcollects' hd hd' hsame hpart hpart'
  rw [generate_of_valid (Collection.ofDocuments_eq_ok.mpr hpart)
      (validate_part hrestates hvalid hpart),
    generate_of_valid (Collection.ofDocuments_eq_ok.mpr hpart')
      (validate_part hrestates' hvalid' hpart')]
  exact ⟨fun e => hreach.generate_eq_error_iff, fun m hm => hreach.exists_matches hm⟩

/-- Names that are closed under spreads hold whatever is reached from one of them. -/
theorem mem_of_closed {names : List String} {a b : String} (ha : a ∈ names)
    (hclosed : ∀ a ∈ names, ∀ f ∈ c.fragment? a, ∀ b ∈ f.dependencies, b ∈ names)
    (h : ReflTransGen c.Spreads a b) : b ∈ names := by
  induction h with
  | refl => exact ha
  | tail _ hstep ih =>
      obtain ⟨f, hf, hb⟩ := hstep
      exact hclosed _ ih f hf _ hb

/-- A query with two fragments of other documents. -/
def tableDocument : Document :=
  ⟨⟨"table.graphql"⟩, [.operation (.bare "Table" ["Dish", "Guest"])]⟩

/-- The documents of a dinner. -/
def dinner : List Document :=
  [tableDocument, ⟨⟨"dish.graphql"⟩, [.fragment (.bare "Dish" ["Price"])]⟩,
    ⟨⟨"price.graphql"⟩, [.fragment (.bare "Price" [])]⟩,
    ⟨⟨"guest.graphql"⟩, [.fragment (.bare "Guest" [])]⟩]

/-- The same with others between them, of which one spreads the table's fragments. -/
def banquet : List Document :=
  [⟨⟨"guest.graphql"⟩, [.fragment (.bare "Guest" [])]⟩,
    ⟨⟨"toast.graphql"⟩,
      [.fragment (.bare "Toast" ["Guest", "Dish"]), .operation (.bare "Speech" ["Toast"])]⟩,
    ⟨⟨"price.graphql"⟩, [.fragment (.bare "Price" [])]⟩, tableDocument,
    ⟨⟨"dish.graphql"⟩, [.fragment (.bare "Dish" ["Price"])]⟩]

/-- At the banquet the table's fragments are collected in another order, and the table's module
imports them in that order. -/
theorem matches_of_reached_dinner : Separate dinner ∧ Separate banquet ∧
    ∃ (c c' : Collection) (m m' : Module),
    Collection.ofDocuments dinner [] = .ok c ∧ Collection.ofDocuments banquet [] = .ok c' ∧
    c.validate menuSchema = .ok () ∧ c'.validate menuSchema = .ok () ∧
    tableDocument ∈ dinner ∧ tableDocument ∈ banquet ∧
    (∀ s ∈ tableDocument.spreads, ∀ n, ReflTransGen c.Spreads s n →
      c.fragment? n = c'.fragment? n) ∧
    m.prepend.take 2 = ["import \x7b DishFragmentDoc \x7d from './dish';",
      "import \x7b GuestFragmentDoc \x7d from './guest';"] ∧
    m'.prepend.take 2 = ["import \x7b GuestFragmentDoc \x7d from './guest';",
      "import \x7b DishFragmentDoc \x7d from './dish';"] ∧ m.Matches m' := by
  have hsep : Separate dinner := ⟨by decide +kernel, by decide +kernel, by decide +kernel⟩
  have hsep' : Separate banquet := ⟨by decide +kernel, by decide +kernel, by decide +kernel⟩
  obtain ⟨c, hc⟩ : ∃ c, Collection.ofDocuments dinner [] = .ok c := ⟨_, rfl⟩
  obtain ⟨c', hc'⟩ : ∃ c', Collection.ofDocuments banquet [] = .ok c' := ⟨_, rfl⟩
  have hvalid : c.validate menuSchema = .ok () := by
    obtain rfl := Except.ok.inj hc
    rfl
  have hvalid' : c'.validate menuSchema = .ok () := by
    obtain rfl := Except.ok.inj hc'
    rfl
  have hd : tableDocument ∈ dinner := List.mem_cons_self
  have hd' : tableDocument ∈ banquet := by simp [banquet]
  have hsame : ∀ s ∈ tableDocument.spreads, ∀ n, ReflTransGen c.Spreads s n →
      c.fragment? n = c'.fragment? n := by
    intro s hs n hn
    have hspreads : ∀ s ∈ tableDocument.spreads, s ∈ ["Dish", "Guest", "Price"] := by
      decide +kernel
    have hmem : n ∈ ["Dish", "Guest", "Price"] := by
      refine mem_of_closed (hspreads s hs) ?_ hn
      obtain rfl := Except.ok.inj hc
      decide +kernel
    simp only [List.mem_cons, List.not_mem_nil, or_false] at hmem
    obtain rfl := Except.ok.inj hc
    obtain rfl := Except.ok.inj hc'
    rcases hmem with rfl | rfl | rfl <;> rfl
  obtain ⟨_, hmatches⟩ := matches_of_reached hsep hsep' hc hc' hvalid hvalid' hd hd' hsame
    (.ofMembers [("documentMode", .string "string")]) ".ts" false
  obtain ⟨m, hm⟩ : ∃ m, Composables.generate menuSchema
      (.ofMembers [("documentMode", .string "string")])
      (importedFor tableDocument.location c ".ts" false) [tableDocument] = .ok m := by
    obtain rfl := Except.ok.inj hc
    exact ⟨_, rfl⟩
  obtain ⟨m', hm', hmatch⟩ := hmatches m hm
  refine ⟨hsep, hsep', c, c', m, m', hc, hc', hvalid, hvalid', hd, hd', hsame, ?_, ?_, hmatch⟩
  · obtain rfl := Except.ok.inj hc
    obtain rfl := Except.ok.inj hm
    decide +kernel
  · obtain rfl := Except.ok.inj hc'
    obtain rfl := Except.ok.inj hm'
    decide +kernel

end Layout

end Composables
