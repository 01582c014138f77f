import Composables.Proofs.Module.Import
import Composables.Proofs.Outcome

/-
  Making a module: what it imports in each mode, what it consists of (`generate_eq_ok`), and that
  nothing is missing to make it where its constants are its own (`exists_generate`).
-/

namespace Composables.Collection

variable {c : Collection} {options : Options} {sources : List Path} {is : List Import} {i : Import}
  {m : Module} {e : Error}

/-! ## Imports by modes -/

/-- What is imported in each mode. -/
theorem documentImports_cases (h : c.documentImports options sources = .ok is) :
    (options.documentMode = .graphQLTag ∧
      is = (if c.isEmpty then [] else [.tag options.tagImport]) ++
        c.fragmentImports options.naming) ∨
    (options.documentMode = .documentNode ∧
      is = if c.isEmpty then [] else [.documentNode options.documentNodeImport]) ∨
    (options.documentMode = .documentNodeImportFragments ∧
      is = (if c.isEmpty then [] else [.documentNode options.documentNodeImport]) ++
        c.fragmentImports options.naming) ∨
    (options.documentMode = .string ∧ is = c.fragmentImports options.naming) ∨
    (options.documentMode = .external ∧ c.hasOperations = true ∧
      ∃ module, externalModule options sources = .ok module ∧ is = [.operations module]) ∨
    (options.documentMode = .external ∧ c.hasOperations = false ∧ is = []) := by
  unfold documentImports at h
  cases hmode : options.documentMode with
  | graphQLTag =>
      rw [hmode] at h
      exact .inl ⟨rfl, (Except.ok.inj h).symm⟩
  | documentNode =>
      rw [hmode] at h
      exact .inr (.inl ⟨rfl, (Except.ok.inj h).symm⟩)
  | documentNodeImportFragments =>
      rw [hmode] at h
      exact .inr (.inr (.inl ⟨rfl, (Except.ok.inj h).symm⟩))
  | string =>
      rw [hmode] at h
      exact .inr (.inr (.inr (.inl ⟨rfl, (Except.ok.inj h).symm⟩)))
  | external =>
      rw [hmode] at h
      cases hoperations : c.hasOperations with
      | true =>
          simp only [hoperations, if_true] at h
          obtain ⟨module, hmodule, rfl⟩ := Outcome.map_eq_ok.mp h
          exact .inr (.inr (.inr (.inr (.inl ⟨rfl, rfl, module, hmodule, rfl⟩))))
      | false =>
          simp only [hoperations, Bool.false_eq_true, if_false] at h
          exact .inr (.inr (.inr (.inr (.inr ⟨rfl, rfl, (Except.ok.inj h).symm⟩))))

/-- The tag is imported in its mode, if there is something to declare. -/
theorem tag_mem_iff (h : c.documentImports options sources = .ok is) {spec : ImportSpec} :
    .tag spec ∈ is ↔ spec = options.tagImport ∧ options.documentMode = .graphQLTag ∧
      c.isEmpty = false := by
  have hfragments : Import.tag spec ∉ c.fragmentImports options.naming := by
    intro hmem
    obtain ⟨_, _, h⟩ := eq_fragments_of_mem hmem
    cases h
  rcases documentImports_cases h with ⟨hmode, rfl⟩ | ⟨hmode, rfl⟩ | ⟨hmode, rfl⟩ | ⟨hmode, rfl⟩ |
    ⟨hmode, _, _, _, rfl⟩ | ⟨hmode, _, rfl⟩ <;> cases c.isEmpty <;> simp [hmode, hfragments]

/-- The type of trees is imported in the modes of trees, if there is something to declare. -/
theorem documentNode_mem_iff (h : c.documentImports options sources = .ok is) {spec : ImportSpec} :
    .documentNode spec ∈ is ↔ spec = options.documentNodeImport ∧
      (options.documentMode = .documentNode ∨ options.documentMode = .documentNodeImportFragments) ∧
      c.isEmpty = false := by
  have hfragments : Import.documentNode spec ∉ c.fragmentImports options.naming := by
    intro hmem
    obtain ⟨_, _, h⟩ := eq_fragments_of_mem hmem
    cases h
  rcases documentImports_cases h with ⟨hmode, rfl⟩ | ⟨hmode, rfl⟩ | ⟨hmode, rfl⟩ | ⟨hmode, rfl⟩ |
    ⟨hmode, _, _, _, rfl⟩ | ⟨hmode, _, rfl⟩ <;> cases c.isEmpty <;> simp [hmode, hfragments]

/-- Nothing that is there for functions is among the imports of constants. -/
theorem isClient_eq_false (h : c.documentImports options sources = .ok is) (hi : i ∈ is) :
    i.isClient = false := by
  have hfragments : i ∈ c.fragmentImports options.naming → i.isClient = false := by
    intro hmem
    obtain ⟨_, _, rfl⟩ := eq_fragments_of_mem hmem
    rfl
  have hdeclared : ∀ x : Import, x.isClient = false → i ∈ (if c.isEmpty then [] else [x]) →
      i.isClient = false := by
    intro x hx hmem
    split at hmem
    · exact absurd hmem List.not_mem_nil
    · rw [List.mem_singleton.mp hmem, hx]
  rcases documentImports_cases h with ⟨_, rfl⟩ | ⟨_, rfl⟩ | ⟨_, rfl⟩ | ⟨_, rfl⟩ |
    ⟨_, _, _, _, rfl⟩ | ⟨_, _, rfl⟩
  · exact (List.mem_append.mp hi).elim (hdeclared _ rfl) hfragments
  · exact hdeclared _ rfl hi
  · exact (List.mem_append.mp hi).elim (hdeclared _ rfl) hfragments
  · exact hfragments hi
  · rw [List.mem_singleton.mp hi]
    rfl
  · exact absurd hi List.not_mem_nil

/-- Where constants are declared one by one, those that refer to each other have the imports of
fragments. -/
theorem fragmentImports_subset (h : c.documentImports options sources = .ok is)
    (hinline : options.documentMode.isInline) (htree : options.documentMode ≠ .documentNode) :
    c.fragmentImports options.naming ⊆ is := by
  rcases documentImports_cases h with ⟨_, rfl⟩ | ⟨hmode, rfl⟩ | ⟨_, rfl⟩ | ⟨_, rfl⟩ |
    ⟨hmode, _, _, _, rfl⟩ | ⟨hmode, _, rfl⟩
  · exact List.subset_append_right _ _
  · exact absurd hmode htree
  · exact List.subset_append_right _ _
  · exact List.Subset.refl _
  · rw [hmode] at hinline
    cases hinline
  · rw [hmode] at hinline
    cases hinline

/-- In the mode of constants declared elsewhere, a module with operations imports theirs. -/
theorem exists_operations (h : c.documentImports options sources = .ok is)
    (hmode : options.documentMode = .external) (hoperations : c.hasOperations) :
    ∃ module, .operations module ∈ is := by
  unfold documentImports at h
  rw [hmode] at h
  simp only [hoperations, if_true] at h
  obtain ⟨module, _, rfl⟩ := Outcome.map_eq_ok.mp h
  exact ⟨module, List.mem_singleton.mpr rfl⟩

/-- Where constants are declared in the module itself, all that is imported for them is at hand. -/
theorem exists_documentImports (hinline : options.documentMode.isInline) :
    ∃ is, c.documentImports options sources = .ok is := by
  unfold documentImports
  cases hmode : options.documentMode with
  | external =>
      rw [hmode] at hinline
      cases hinline
  | graphQLTag | documentNode | documentNodeImportFragments | string => exact ⟨_, rfl⟩

/-- What is missing otherwise is the module of the constants. -/
theorem documentImports_eq_error (h : c.documentImports options sources = .error e) :
    options.documentMode = .external ∧
      (e = .missingExternalModule ∨ ∃ n, e = .ambiguousExternalModule n) := by
  by_cases hinline : options.documentMode.isInline
  · obtain ⟨is, his⟩ : ∃ is, c.documentImports options sources = .ok is :=
      exists_documentImports hinline
    rw [his] at h
    cases h
  · have hmode : options.documentMode = .external := by simpa [DocumentMode.isInline] using hinline
    refine ⟨hmode, ?_⟩
    unfold documentImports externalModule at h
    rw [hmode] at h
    dsimp only at h
    split at h
    · split at h
      · exact .inl (Except.error.inj h).symm
      · cases h
      · split at h
        · cases h
        · exact .inr ⟨_, (Except.error.inj h).symm⟩
    · cases h

/-! ## Constants -/

theorem mem_constants_of_fragment (hinline : options.documentMode.isInline) {f : Fragment}
    (hf : f ∈ c.fragments) : c.fragmentConstant options f ∈ c.constants options := by
  rw [constants, if_pos hinline]
  exact List.mem_append_left _ (List.mem_map_of_mem hf)

theorem mem_constants_of_operation (hinline : options.documentMode.isInline) {o : Operation}
    (ho : o ∈ c.operations) : c.operationConstant options o ∈ c.constants options := by
  rw [constants, if_pos hinline]
  exact List.mem_append_right _ (List.mem_map_of_mem ho)

theorem mem_constants {k : Constant} (h : k ∈ c.constants options) :
    options.documentMode.isInline ∧
      ((∃ f ∈ c.fragments, c.fragmentConstant options f = k) ∨
        ∃ o ∈ c.operations, c.operationConstant options o = k) := by
  unfold constants at h
  by_cases hinline : options.documentMode.isInline
  · rw [if_pos hinline, List.mem_append, List.mem_map, List.mem_map] at h
    exact ⟨hinline, h⟩
  · rw [if_neg hinline] at h
    exact absurd h List.not_mem_nil

/-- A constant is exported unless the options say otherwise. -/
theorem render_of_mem_constants {k : Constant} (h : k ∈ c.constants options) :
    k.render = (if options.noExport then "" else "export ") ++ "const " ++ k.name ++ " = " ++
      k.value.render ++ ";" := by
  have hexported : k.exported = !options.noExport := by
    obtain ⟨_, ⟨f, _, rfl⟩ | ⟨o, _, rfl⟩⟩ := mem_constants h <;> rfl
  rw [Constant.render_eq, hexported]
  cases options.noExport <;> rfl

/-! ## The module -/

theorem generate_eq_ok : c.generate options sources = .ok m ↔
    ∃ is, c.documentImports options sources = .ok is ∧
      m = ⟨is ++ if c.bindsFunctions options then options.client.imports options else [],
        c.constants options,
        if c.bindsFunctions options then c.operations.map (functionsOf options) else []⟩ := by
  unfold generate
  rw [Outcome.bind_eq_ok]
  refine exists_congr fun is => and_congr_right fun _ => ?_
  cases c.bindsFunctions options with
  | true => exact ⟨fun h => (Except.ok.inj h).symm, fun h => congrArg _ h.symm⟩
  | false =>
      rw [if_neg Bool.false_ne_true, if_neg Bool.false_ne_true, if_neg Bool.false_ne_true,
        List.append_nil]
      exact ⟨fun h => (Except.ok.inj h).symm, fun h => congrArg _ h.symm⟩

/-- What a module is made of: the constants and the functions of a collection, the imports of the
constants, and those of a client library if there are functions. -/
structure Makes (c : Collection) (options : Options) (is : List Import) (m : Module) : Prop where
  constants : m.constants = c.constants options
  functions : m.functions =
    if c.bindsFunctions options then c.operations.map (functionsOf options) else []
  imports : m.imports =
    is ++ if c.bindsFunctions options then options.client.imports options else []

theorem makes_of_generate (h : c.generate options sources = .ok m) :
    ∃ is, c.documentImports options sources = .ok is ∧ c.Makes options is m := by
  obtain ⟨is, his, rfl⟩ := generate_eq_ok.mp h
  exact ⟨is, his, rfl, rfl, rfl⟩

namespace Makes

theorem mem_imports (h : c.Makes options is m) :
    i ∈ m.imports ↔ i ∈ is ∨ (i ∈ options.client.imports options ∧ c.bindsFunctions options) := by
  rw [h.imports, List.mem_append]
  cases c.bindsFunctions options <;> simp

theorem mem_imports_of_constants (h : c.Makes options is m) (hi : i.isClient = false) :
    i ∈ m.imports ↔ i ∈ is := by
  rw [h.mem_imports]
  refine or_iff_left fun hclient => ?_
  rw [Client.isClient_of_mem hclient.1] at hi
  cases hi

theorem mem_imports_of_functions (h : c.Makes options is m)
    (his : c.documentImports options sources = .ok is) (hi : i.isClient) :
    i ∈ m.imports ↔ i ∈ options.client.imports options ∧ c.bindsFunctions options := by
  rw [h.mem_imports]
  refine or_iff_right fun hmem => ?_
  rw [isClient_eq_false his hmem] at hi
  cases hi

end Makes

/-- A module that cannot be made lacks an import. -/
theorem generate_eq_error (h : c.generate options sources = .error e) :
    c.documentImports options sources = .error e := by
  cases himports : c.documentImports options sources with
  | error e' =>
      unfold generate at h
      rw [himports] at h
      exact congrArg Except.error (Except.error.inj h)
  | ok is =>
      rw [generate_eq_ok.mpr ⟨is, himports, rfl⟩] at h
      cases h

/-- Where constants are declared in the module itself, nothing is missing to make it. -/
theorem exists_generate (hinline : options.documentMode.isInline) :
    ∃ m, c.generate options sources = .ok m := by
  obtain ⟨is, his⟩ : ∃ is, c.documentImports options sources = .ok is :=
    exists_documentImports hinline
  exact ⟨_, generate_eq_ok.mpr ⟨is, his, rfl⟩⟩

/-- Where documents come from only counts if a module is sought beside the one of them. -/
theorem generate_congr_sources (c : Collection) (sources sources' : List Path)
    (h : options.documentMode = .external → options.externalModule? ≠ some .besideDocument) :
    c.generate options sources = c.generate options sources' := by
  have himports : c.documentImports options sources = c.documentImports options sources' := by
    unfold documentImports
    cases hmode : options.documentMode with
    | external =>
        have hmodule : externalModule options sources = externalModule options sources' := by
          unfold externalModule
          split
          · rfl
          · rfl
          · rename_i hbeside
            exact absurd hbeside (h hmode)
        simp only [hmodule]
    | graphQLTag | documentNode | documentNodeImportFragments | string => rfl
  unfold generate
  rw [himports]

end Composables.Collection

namespace Composables

/-- Documents that can be collected and that a schema admits have the module of their collection. -/
theorem generate_of_valid {schema : Schema} {options : Options} {offered : List ImportedFragment}
    {ds : List Document} {c : Collection} (hc : Collection.ofDocuments ds offered = .ok c)
    (hvalid : c.validate schema = .ok ()) :
    generate schema options offered ds = c.generate options (ds.map Document.location) := by
  rw [generate, hc]
  show (c.validate schema >>= fun _ => c.generate options (ds.map Document.location)) = _
  rw [hvalid]
  rfl

end Composables
