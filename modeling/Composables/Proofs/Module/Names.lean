import Mathlib
import Composables.Proofs.Collection.Gather
import Composables.Proofs.Module.Generate
import Composables.Proofs.Naming.Affixes

/-
  When no name is declared twice in a module. Conversion may take two names to one, and nothing
  keeps what it makes apart, so this depends on the documents. With plain affixes most kinds of
  names are apart by what they begin and end with; what is left to ask is said by `ValuesApart` and
  `TypesApart`, and is exact (`names_nodup_iff`).
-/

namespace Composables

variable {options : Options}

/-! ## What is declared for an operation -/

namespace Apollo

variable {b : Binding}

theorem filterMap_parts {f : Part → Option String} (hf : ∀ lines, f (.comment lines) = none) :
    (parts options b).filterMap f = (functions b ++ [resultAlias b]).filterMap f := by
  have hcomment : f (comment b) = none := by
    unfold comment
    split <;> exact hf _
  unfold parts
  split <;> simp [hcomment]

theorem functionNames_parts : (parts options b).filterMap Part.functionName? =
    b.function :: if b.kind = .query then [b.lazyFunction] else [] := by
  rw [filterMap_parts fun _ => rfl, functions]
  cases b.kind <;> rfl

theorem typeNames_parts : (parts options b).filterMap Part.typeName? = [b.resultAlias] := by
  rw [filterMap_parts fun _ => rfl, functions]
  cases b.kind <;> rfl

end Apollo

namespace Client

variable {client : Client} {b : Binding}

/-- One function for an operation, and a lazy one for a query of Apollo. -/
theorem functionNames_functions : (client.functions options b).filterMap Part.functionName? =
    b.function :: if client = .apollo ∧ b.kind = .query then [b.lazyFunction] else [] := by
  cases client with
  | apollo =>
      show (Apollo.parts options b).filterMap Part.functionName? = _
      rw [Apollo.functionNames_parts]
      simp
  | urql =>
      unfold functions Urql.function
      cases b.kind <;> rfl

theorem typeNames_functions : (client.functions options b).filterMap Part.typeName? =
    if client = .apollo then [b.resultAlias] else [] := by
  cases client with
  | apollo => exact Apollo.typeNames_parts
  | urql =>
      unfold functions Urql.function
      cases b.kind <;> rfl

end Client

namespace Collection

variable {c : Collection} {m : Module}

/-- The operations that Apollo has a lazy function for. -/
def queries (c : Collection) : List Operation := c.operations.filter fun o => o.kind = .query

/-- The names of functions of a collection's operations, the lazy ones behind the others. -/
def functionNames (c : Collection) (options : Options) : List String :=
  (c.operations.map fun o => options.naming.function o.name o.kind) ++
    if options.client = .apollo then
      c.queries.map fun o => options.naming.lazyFunction o.name o.kind
    else []

/-- Functions stand operation by operation; apart from their order these are the names. -/
theorem functionNames_perm (c : Collection) (options : Options) :
    ((c.operations.map (functionsOf options)).flatten.filterMap Part.functionName?).Perm
      (c.functionNames options) := by
  have hnames : (c.operations.map (functionsOf options)).flatten.filterMap Part.functionName? =
      c.operations.flatMap fun o => [options.naming.function o.name o.kind] ++
        if options.client = .apollo ∧ o.kind = .query then
          [options.naming.lazyFunction o.name o.kind]
        else [] := by
    rw [← List.flatMap_def, List.filterMap_flatMap]
    exact congrArg (List.flatMap · c.operations) (funext fun o => Client.functionNames_functions)
  have hlazy : (c.operations.flatMap fun o => if options.client = .apollo ∧ o.kind = .query then
        [options.naming.lazyFunction o.name o.kind] else []) =
      if options.client = .apollo then
        c.queries.map fun o => options.naming.lazyFunction o.name o.kind
      else [] := by
    unfold queries
    by_cases hclient : options.client = .apollo
    · simp only [hclient, true_and, if_true]
      induction c.operations with
      | nil => rfl
      | cons o os ih => by_cases hkind : o.kind = .query <;> simp [hkind, ih]
    · simp [hclient]
  rw [hnames]
  refine (List.flatMap_append_perm _ _ _).symm.trans ?_
  rw [hlazy, ← List.map_eq_flatMap]
  rfl

theorem flatten_functions {is : List Import} (h : c.Makes options is m) : m.functions.flatten =
    if options.functions then (c.operations.map (functionsOf options)).flatten else [] := by
  rw [h.functions, bindsFunctions]
  cases options.functions with
  | false => rfl
  | true =>
      rw [Bool.true_and, if_pos rfl]
      split
      · rfl
      · rename_i hnone
        have hoperations : c.operations = [] := by simpa [hasOperations] using hnone
        rw [hoperations]
        rfl

/-! ## When names are apart -/

/-- What keeps the names of the values of a module apart. -/
structure ValuesApart (c : Collection) (options : Options) : Prop where
  fragments : options.documentMode.isInline →
    (c.fragments.map fun f => options.naming.convert f.name).Nodup
  operations : options.documentMode.isInline →
    (c.operations.map fun o => options.naming.convert o.name).Nodup
  functions : options.functions →
    (c.operations.map fun o => options.naming.base o.name o.kind).Nodup
  lazies : options.functions → options.client = .apollo →
    (c.queries.map fun q => options.naming.stem q.name q.kind).Nodup
  /-- No operation is called like a query with the suffix of lazy functions. -/
  lazies_fresh : options.functions → options.client = .apollo →
    ∀ o ∈ c.operations, ∀ q ∈ c.queries,
      options.naming.base o.name o.kind ≠ options.naming.stem q.name q.kind ++ "LazyQuery"
  /-- Only names that stay as they are, and have no suffix, can be those of a function and of a
  constant. -/
  constants_fresh : options.functions → options.documentMode.isInline →
    options.naming.convention = .keep → options.naming.omitOperationSuffix →
    ∀ o ∈ c.operations, (∀ f ∈ c.fragments, f.name ++ "FragmentDoc" ≠ "use" ++ o.name) ∧
      ∀ p ∈ c.operations, p.name ++ "Document" ≠ "use" ++ o.name

/-- What keeps the names of the types of a module apart. -/
def TypesApart (c : Collection) (options : Options) : Prop :=
  options.functions → options.client = .apollo →
    (c.operations.map fun o => options.naming.base o.name o.kind).Nodup

/-- The names of constants, those of fragments before those of operations. -/
def constantNames (c : Collection) (n : Naming) : List String :=
  (c.fragments.map fun f => n.fragmentConstant f.name) ++
    c.operations.map fun o => n.documentConstant o.name

theorem nodup_constantNames_iff {n : Naming} (hplain : n.Plain) : (c.constantNames n).Nodup ↔
    (c.fragments.map fun f => n.convert f.name).Nodup ∧
      (c.operations.map fun o => n.convert o.name).Nodup := by
  have hfragments : (c.fragments.map fun f => n.fragmentConstant f.name).Nodup ↔
      (c.fragments.map fun f => n.convert f.name).Nodup :=
    Naming.nodup_map_affix (Naming.append_left_injective "FragmentDoc") fun _ =>
      hplain.fragmentConstant
  have hoperations : (c.operations.map fun o => n.documentConstant o.name).Nodup ↔
      (c.operations.map fun o => n.convert o.name).Nodup :=
    Naming.nodup_map_affix (Naming.append_left_injective "Document") fun _ =>
      hplain.documentConstant
  have hapart : ∀ a ∈ c.fragments.map fun f => n.fragmentConstant f.name,
      ∀ b ∈ c.operations.map fun o => n.documentConstant o.name, a ≠ b := by
    intro a ha b hb
    obtain ⟨f, _, rfl⟩ := List.mem_map.mp ha
    obtain ⟨o, _, rfl⟩ := List.mem_map.mp hb
    rw [hplain.fragmentConstant, hplain.documentConstant]
    exact Naming.ne_of_ends (Naming.ends_append _ _) (Naming.ends_append _ _) (by decide +kernel)
  rw [constantNames, List.nodup_append, hfragments, hoperations, and_iff_left hapart]

theorem nodup_functionNames_iff : (c.functionNames options).Nodup ↔
    (c.operations.map fun o => options.naming.base o.name o.kind).Nodup ∧
      (options.client = .apollo →
        (c.queries.map fun q => options.naming.stem q.name q.kind).Nodup ∧
          ∀ o ∈ c.operations, ∀ q ∈ c.queries, options.naming.base o.name o.kind ≠
            options.naming.stem q.name q.kind ++ "LazyQuery") := by
  have huse : Function.Injective ("use" ++ ·) := fun _ _ h => (String.append_right_inj "use").mp h
  have hfunctions : (c.operations.map fun o => options.naming.function o.name o.kind).Nodup ↔
      (c.operations.map fun o => options.naming.base o.name o.kind).Nodup :=
    Naming.nodup_map_affix huse fun _ => rfl
  have hlazies : (c.queries.map fun q => options.naming.lazyFunction q.name q.kind).Nodup ↔
      (c.queries.map fun q => options.naming.stem q.name q.kind).Nodup :=
    Naming.nodup_map_affix ((Naming.append_left_injective "LazyQuery").comp huse) fun _ => rfl
  have hfresh : (∀ a ∈ c.operations.map fun o => options.naming.function o.name o.kind,
        ∀ b ∈ c.queries.map fun q => options.naming.lazyFunction q.name q.kind, a ≠ b) ↔
      ∀ o ∈ c.operations, ∀ q ∈ c.queries, options.naming.base o.name o.kind ≠
        options.naming.stem q.name q.kind ++ "LazyQuery" := by
    simp only [List.forall_mem_map, Naming.function, Naming.lazyFunction_eq, String.append_assoc,
      ne_eq, String.append_right_inj]
  rw [functionNames, List.nodup_append, hfunctions]
  refine and_congr_right fun _ => ?_
  by_cases hclient : options.client = .apollo
  · simp only [hclient, if_true, true_imp_iff, hlazies, hfresh]
  · simp [hclient]

theorem constants_fresh_iff (hplain : options.naming.Plain) :
    (∀ a ∈ c.constantNames options.naming, ∀ b ∈ c.functionNames options, a ≠ b) ↔
      (options.naming.convention = .keep → options.naming.omitOperationSuffix →
        ∀ o ∈ c.operations, (∀ f ∈ c.fragments, f.name ++ "FragmentDoc" ≠ "use" ++ o.name) ∧
          ∀ p ∈ c.operations, p.name ++ "Document" ≠ "use" ++ o.name) := by
  -- no constant is called like a lazy function, so the other functions decide
  have hlazies : ∀ a ∈ c.constantNames options.naming, ∀ b ∈ (if options.client = .apollo then
        c.queries.map fun q => options.naming.lazyFunction q.name q.kind else []), a ≠ b := by
    intro a ha b hb
    obtain ⟨_, hb⟩ := List.mem_ite_nil_right.mp hb
    obtain ⟨q, _, rfl⟩ := List.mem_map.mp hb
    rcases List.mem_append.mp ha with ha | ha
    · obtain ⟨f, _, rfl⟩ := List.mem_map.mp ha
      rw [hplain.fragmentConstant]
      exact Naming.constant_ne_lazyFunction (.inl rfl)
    · obtain ⟨p, _, rfl⟩ := List.mem_map.mp ha
      rw [hplain.documentConstant]
      exact Naming.constant_ne_lazyFunction (.inr rfl)
  have hfunctions : (∀ a ∈ c.constantNames options.naming, ∀ b ∈ c.functionNames options, a ≠ b) ↔
      ∀ a ∈ c.constantNames options.naming, ∀ o ∈ c.operations,
        a ≠ options.naming.function o.name o.kind := by
    refine forall₂_congr fun a ha => ?_
    rw [functionNames, List.forall_mem_append, and_iff_left (hlazies a ha), List.forall_mem_map]
  rw [hfunctions]
  simp only [constantNames, List.forall_mem_append, List.forall_mem_map, hplain.fragmentConstant,
    hplain.documentConstant, ne_eq, Naming.constant_eq_function (Or.inl rfl),
    Naming.constant_eq_function (Or.inr rfl)]
  constructor
  · rintro ⟨hfragments, hoperations⟩ hkeep homit o ho
    exact ⟨fun f hf h => hfragments f hf o ho ⟨hkeep, homit, h⟩,
      fun p hp h => hoperations p hp o ho ⟨hkeep, homit, h⟩⟩
  · intro hfresh
    exact ⟨fun f hf o ho h => (hfresh h.1 h.2.1 o ho).1 f hf h.2.2,
      fun p hp o ho h => (hfresh h.1 h.2.1 o ho).2 p hp h.2.2⟩

/-! ## The names of a module -/

section Made

variable {is : List Import}

theorem valueNames_perm (h : c.Makes options is m) : m.valueNames.Perm
    ((if options.documentMode.isInline then c.constantNames options.naming else []) ++
      if options.functions then c.functionNames options else []) := by
  have hconstants : m.constants.map Constant.name =
      if options.documentMode.isInline then c.constantNames options.naming else [] := by
    rw [h.constants, constants, apply_ite (List.map Constant.name)]
    refine if_congr Iff.rfl ?_ rfl
    rw [List.map_append, List.map_map, List.map_map]
    rfl
  have hfunctions : (m.functions.flatten.filterMap Part.functionName?).Perm
      (if options.functions then c.functionNames options else []) := by
    rw [flatten_functions h]
    split
    · exact functionNames_perm c options
    · rfl
  rw [Module.valueNames, hconstants]
  exact hfunctions.append_left _

theorem typeNames_eq (h : c.Makes options is m) : m.typeNames =
    if options.functions ∧ options.client = .apollo then
      c.operations.map fun o => options.naming.resultAlias o.name o.kind
    else [] := by
  rw [Module.typeNames, flatten_functions h]
  by_cases hfunctions : options.functions
  · rw [if_pos hfunctions, ← List.flatMap_def, List.filterMap_flatMap]
    have htypes (o : Operation) : (functionsOf options o).filterMap Part.typeName? =
        if options.client = .apollo then [options.naming.resultAlias o.name o.kind] else [] :=
      Client.typeNames_functions
    simp only [htypes, hfunctions, true_and]
    split
    · exact List.map_eq_flatMap.symm
    · exact List.flatMap_eq_nil_iff.mpr fun _ _ => rfl
  · rw [if_neg hfunctions, if_neg fun h => hfunctions h.1]
    rfl

theorem nodup_valueNames_iff (h : c.Makes options is m) (hplain : options.naming.Plain) :
    m.valueNames.Nodup ↔ c.ValuesApart options := by
  rw [(valueNames_perm h).nodup_iff, List.nodup_append]
  constructor
  · rintro ⟨hconstants, hfunctions, hfresh⟩
    have hconstants : options.documentMode.isInline → _ := fun hinline =>
      (nodup_constantNames_iff hplain).mp (by rwa [if_pos hinline] at hconstants)
    have hfunctions : options.functions → _ := fun hbinds =>
      nodup_functionNames_iff.mp (by rwa [if_pos hbinds] at hfunctions)
    constructor
    case fragments => exact fun hinline => (hconstants hinline).1
    case operations => exact fun hinline => (hconstants hinline).2
    case functions => exact fun hbinds => (hfunctions hbinds).1
    case lazies => exact fun hbinds hclient => ((hfunctions hbinds).2 hclient).1
    case lazies_fresh => exact fun hbinds hclient => ((hfunctions hbinds).2 hclient).2
    case constants_fresh =>
      intro hbinds hinline
      rw [if_pos hbinds, if_pos hinline] at hfresh
      exact (constants_fresh_iff hplain).mp hfresh
  · intro hapart
    refine ⟨?_, ?_, ?_⟩
    · split
      · rename_i hinline
        exact (nodup_constantNames_iff hplain).mpr
          ⟨hapart.fragments hinline, hapart.operations hinline⟩
      · exact List.nodup_nil
    · split
      · rename_i hbinds
        exact nodup_functionNames_iff.mpr ⟨hapart.functions hbinds,
          fun hclient => ⟨hapart.lazies hbinds hclient, hapart.lazies_fresh hbinds hclient⟩⟩
      · exact List.nodup_nil
    · intro a ha b hb
      obtain ⟨hinline, ha⟩ := List.mem_ite_nil_right.mp ha
      obtain ⟨hbinds, hb⟩ := List.mem_ite_nil_right.mp hb
      exact (constants_fresh_iff hplain).mpr (hapart.constants_fresh hbinds hinline) a ha b hb

theorem nodup_typeNames_iff (h : c.Makes options is m) :
    m.typeNames.Nodup ↔ c.TypesApart options := by
  have haliases : (c.operations.map fun o => options.naming.resultAlias o.name o.kind).Nodup ↔
      (c.operations.map fun o => options.naming.base o.name o.kind).Nodup :=
    Naming.nodup_map_affix (Naming.append_left_injective "CompositionFunctionResult") fun _ => rfl
  rw [typeNames_eq h, TypesApart]
  split
  · rename_i hboth
    rw [haliases]
    exact ⟨fun h _ _ => h, fun h => h hboth.1 hboth.2⟩
  · rename_i hnot
    exact iff_of_true List.nodup_nil fun hbinds hclient => absurd ⟨hbinds, hclient⟩ hnot

end Made

/-- Where names stay as they are, only a query that is called like another one with `Lazy` behind it
makes a name twice. -/
theorem apart_of_verbatim {ds : List Document} {offered : List ImportedFragment}
    (hc : Collects ds offered c) (hverbatim : options.naming.Verbatim) :
    (c.ValuesApart options ↔ (options.functions → options.client = .apollo →
      ∀ o ∈ c.queries, ∀ q ∈ c.queries, o.name ≠ q.name ++ "Lazy")) ∧ c.TypesApart options := by
  have hnames : (c.operations.map Operation.name).Nodup := hc.nodup_operations
  have hbases : (c.operations.map fun o => options.naming.base o.name o.kind).Nodup :=
    Naming.nodup_map_of_eq hnames fun _ _ => hverbatim.base_inj
  refine ⟨⟨fun hapart hbinds hclient o ho q hq hname => ?_, fun hlazy => ?_⟩, fun _ _ => hbases⟩
  · obtain ⟨ho, hkind⟩ := List.mem_filter.mp ho
    exact hapart.lazies_fresh hbinds hclient o ho q hq
      (hverbatim.base_eq_lazy_iff.mpr ⟨of_decide_eq_true hkind, hname⟩)
  · constructor
    case fragments =>
      intro _
      simp only [hverbatim.convert]
      exact hc.nodup_fragments
    case operations =>
      intro _
      simp only [hverbatim.convert]
      exact hnames
    case functions => exact fun _ => hbases
    case lazies =>
      intro _ _
      simp only [hverbatim.stem]
      exact hnames.sublist (List.filter_sublist.map _)
    case lazies_fresh =>
      intro hbinds hclient o ho q hq heq
      obtain ⟨hkind, hname⟩ := hverbatim.base_eq_lazy_iff.mp heq
      exact hlazy hbinds hclient o (List.mem_filter.mpr ⟨ho, decide_eq_true hkind⟩) q hq hname
    case constants_fresh =>
      intro _ _ _ homit
      rw [hverbatim.full] at homit
      cases homit

end Collection

/-! ## Documents -/

/-- A generated module with plain affixes declares no value and no type twice exactly if conversion
keeps apart what its documents name. Where names stay as they are it does, but for lazy functions of
queries. -/
theorem names_nodup_iff {schema : Schema} {offered : List ImportedFragment} {ds : List Document}
    {m : Module} (hplain : options.naming.Plain)
    (hm : generate schema options offered ds = .ok m) :
    ∃ c, Collection.ofDocuments ds offered = .ok c ∧
      (m.valueNames.Nodup ↔ c.ValuesApart options) ∧
      (m.typeNames.Nodup ↔ c.TypesApart options) ∧
      (options.naming.Verbatim → m.typeNames.Nodup ∧
        (m.valueNames.Nodup ↔ (options.functions → options.client = .apollo →
          ∀ o ∈ c.queries, ∀ q ∈ c.queries, o.name ≠ q.name ++ "Lazy"))) := by
  obtain ⟨c, hc, hm⟩ := Outcome.bind_eq_ok.mp hm
  obtain ⟨_, _, hm⟩ := Outcome.bind_eq_ok.mp hm
  obtain ⟨is, _, hmakes⟩ := Collection.makes_of_generate hm
  have hvalues := Collection.nodup_valueNames_iff hmakes hplain
  have htypes := Collection.nodup_typeNames_iff hmakes
  refine ⟨c, hc, hvalues, htypes, fun hverbatim => ?_⟩
  obtain ⟨hvaluesApart, htypesApart⟩ :=
    Collection.apart_of_verbatim (Collection.ofDocuments_eq_ok.mp hc) hverbatim
  exact ⟨htypes.mpr htypesApart, hvalues.trans hvaluesApart⟩

/-- A query of one field on a line of its own. -/
def Graphql.Definition.line (line : Nat) (name : String) : Graphql.Definition :=
  .operation ⟨⟨line, 1⟩, .query, some name, [], [],
    [.field ⟨line, 10 + name.length⟩ none "a" [] [] []]⟩

def rootSchema : Schema := ⟨⟨some "Query", none, none⟩, ["Query"]⟩

def digest : Document := ⟨⟨"digest.graphql"⟩, [.line 1 "Feed", .line 2 "FeedLazy"]⟩

def keeping : Options := .ofMembers [("namingConvention", .string "keep")]

/-- The function of the second query is called like the lazy one of the first; their types are
apart. -/
theorem names_nodup_iff_digest : ∃ m, generate rootSchema keeping [] [digest] = .ok m ∧
    ¬ m.valueNames.Nodup ∧ m.typeNames.Nodup := by
  obtain ⟨m, hm⟩ : ∃ m, generate rootSchema keeping [] [digest] = .ok m := by
    rw [generate_of_valid rfl rfl]
    exact Collection.exists_generate (by decide +kernel)
  have hplain : keeping.naming.Plain := ⟨rfl, rfl, rfl, rfl⟩
  obtain ⟨c, hc, _, _, hkept⟩ := names_nodup_iff hplain hm
  obtain ⟨htypes, hvalues⟩ := hkept ⟨rfl, rfl, rfl⟩
  have hcollection : Collection.ofDocuments [digest] [] = .ok ⟨digest.operations, [], []⟩ := rfl
  obtain rfl := Except.ok.inj (hc.symm.trans hcollection)
  refine ⟨m, hm, fun hnodup => ?_, htypes⟩
  have hlazy := hvalues.mp hnodup rfl rfl
  revert hlazy
  decide +kernel

/-- Two names that differ in the case of a letter. -/
def initials : Document := ⟨⟨"a.graphql"⟩, [.line 1 "a", .line 2 "A"]⟩

/-- Nothing keeps them apart in pascal case: constants, functions and types are all declared
twice. -/
theorem initials_repeat :
    Document.parse "query a { a }\nquery A { a }" ⟨"a.graphql"⟩ = .ok initials ∧
      (Options.ofMembers []).naming.Plain ∧
      ∃ m, generate rootSchema (.ofMembers []) [] [initials] = .ok m ∧
        m.valueNames = ["ADocument", "ADocument", "useAQuery", "useALazyQuery", "useAQuery",
          "useALazyQuery"] ∧
        ¬ m.valueNames.Nodup ∧
        m.typeNames = ["AQueryCompositionFunctionResult", "AQueryCompositionFunctionResult"] ∧
        ¬ m.typeNames.Nodup := by
  have hparse : Document.parse "query a { a }\nquery A { a }" ⟨"a.graphql"⟩ = .ok initials := by
    cbv
  obtain ⟨m, hm, hvalues, htypes⟩ : ∃ m, generate rootSchema (.ofMembers []) [] [initials] = .ok m ∧
      m.valueNames = ["ADocument", "ADocument", "useAQuery", "useALazyQuery", "useAQuery",
        "useALazyQuery"] ∧
      m.typeNames = ["AQueryCompositionFunctionResult", "AQueryCompositionFunctionResult"] :=
    ⟨_, rfl, by decide +kernel, by decide +kernel⟩
  refine ⟨hparse, ⟨rfl, rfl, rfl, rfl⟩, m, hm, hvalues, ?_, htypes, ?_⟩
  · rw [hvalues]
    decide
  · rw [htypes]
    decide

end Composables
