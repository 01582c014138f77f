import Composables.Proofs.Graphql.Sketch
import Composables.Proofs.Project.Written

/-
  What a compilation that fails leaves on disk. It changes nothing before the project is read and
  its first module is made. Beside documents, modules are made and written in turns, so that a
  module which cannot be made comes too late for those in front of it (`interrupted_of_compile`).
  Once a project is read, that happens to one kind of module only: to the first one that imports
  operations, if it is not said from where.
-/

namespace Composables

open FileSystem (Logged Written)

/-- The module of one document is not made just if it imports operations and is not told from
where. -/
theorem Collection.generate_singleton_eq_error {c : Collection} {options : Options} {source : Path}
    {e : Error} : c.generate options [source] = .error e ↔
      (options.documentMode = .external ∧ options.externalModule? = none ∧ c.hasOperations) ∧
        e = .missingExternalModule := by
  constructor
  · intro h
    have himports := generate_eq_error h
    have hmode := (documentImports_eq_error himports).1
    rw [documentImports, hmode] at himports
    dsimp only at himports
    split at himports
    · rename_i hoperations
      unfold externalModule at himports
      split at himports
      · rename_i hmodule
        exact ⟨⟨hmode, hmodule, hoperations⟩, (Except.error.inj himports).symm⟩
      · cases himports
      · cases himports
    · cases himports
  · rintro ⟨⟨hmode, hmodule, hoperations⟩, rfl⟩
    rw [generate, documentImports, hmode]
    dsimp only
    rw [if_pos hoperations, externalModule, hmodule]
    rfl

/-- A document with a named operation has operations. -/
theorem Document.operations_ne_nil {d : Document} (h : d.hasOperations) : d.operations ≠ [] := by
  obtain ⟨x, hx, hname⟩ := List.any_eq_true.mp h
  intro hnil
  have hnone := List.filterMap_eq_nil_iff.mp hnil x hx
  cases x with
  | operation definition =>
      rw [Graphql.Definition.operation?, Operation.ofDefinition?, Option.map_eq_none_iff] at hnone
      rw [Graphql.Definition.operationName?, hnone] at hname
      cases hname
  | shorthand => cases hname
  | fragment => cases hname

theorem Layout.part_hasOperations {d : Document} {offered : List ImportedFragment}
    {part : Collection} (h : Collects [d] offered part) : part.hasOperations = d.hasOperations := by
  rw [Collection.hasOperations, part_operations h]
  cases hd : d.hasOperations with
  | false =>
      rw [Document.operations_eq_nil hd]
      rfl
  | true =>
      obtain ⟨o, ho⟩ := List.exists_mem_of_ne_nil _ (Document.operations_ne_nil hd)
      obtain ⟨o', ho', _⟩ :=
        List.mem_map.mp (mem_names_firsts.mpr (List.mem_map_of_mem ho : o.name ∈ _))
      rw [Bool.not_eq_true', List.isEmpty_eq_false_iff]
      exact List.ne_nil_of_mem ho'

namespace Project

open Graphql (PrintTells)

variable {fs fs' : FileSystem} {p : Project} {l : Loaded} {d : Document} {ds : List Document}
  {e : Error}

/-! ## Documents by themselves -/

/-- The prints of definitions that were read tell what they ask for. -/
theorem printTells_of_load {roots : List Path} (h : loadDocuments fs roots = .ok ds) :
    PrintTells (ds.flatMap Document.definitions) := by
  refine Graphql.printTells_of_formed fun x hx => (?_ : x.Formed Graphql.Grammar.depthLimit)
  obtain ⟨d, hd, hx⟩ := List.mem_flatMap.mp hx
  obtain ⟨text, _, hparse⟩ := fromFile_of_mem h hd
  exact Graphql.formed_of_parse hparse x hx

/-- Once a project is read, the module of a document is not made just if it imports operations and
is not told from where. -/
theorem generate_eq_error_iff (hload : loadAll fs p = .ok l) (hd : d ∈ l.documents) :
    Layout.generate l.schema p.options l.collection p.extension d = .error e ↔
      (p.options.documentMode = .external ∧ p.options.externalModule? = none ∧ d.hasOperations) ∧
        e = .missingExternalModule := by
  obtain ⟨hdocuments, hc, hvalid⟩ := loadAll_eq_ok hload
  have hcollects := Collection.ofDocuments_eq_ok.mp hc
  have hrestates := restates_of_files (fun e he => fromFile_of_mem hdocuments he)
    (printTells_of_load hdocuments) hcollects hd
  obtain ⟨part, hpart⟩ : ∃ part, Collects [d]
      (Layout.importedFor d.location l.collection p.extension (!p.options.legacyImports)) part :=
    Layout.exists_collects hcollects hd hrestates
  rw [Layout.generate_of_collects hpart (Layout.validate_part hrestates hvalid hpart),
    Collection.generate_singleton_eq_error, Layout.part_hasOperations hpart]

/-! ## Runs that fail -/

theorem writeModule_eq_error {path : Path} {m : Module} (h : writeModule path m fs = .error e fs') :
    ∃ fault, e = .unwritable path fault := by
  have hyields := yields_writeModule path m fs
  rw [h] at hyields
  exact hyields

/-- Making a module and writing it changes nothing, or fails to write. -/
theorem writing_eq_error {α : Type} {x : Except Error Module} {path : Path} {a : α}
    (h : (do writeModule path (← MonadExcept.ofExcept x); return a : Action α) fs = .error e fs') :
    (x = .error e ∧ fs' = fs) ∨ ∃ fault, e = .unwritable path fault := by
  rcases Outcome.run_bind_eq_error.mp h with hx | ⟨m, _, _, h⟩
  · exact .inl (Outcome.run_ofExcept_eq_error.mp hx)
  · rcases Outcome.run_bind_eq_error.mp h with hwrite | ⟨_, _, _, h⟩
    · exact .inr (writeModule_eq_error hwrite)
    · cases h

/-- What is left behind by a compilation that comes to a document whose module cannot be made:
the modules of some documents in front of it are written, and nothing else is changed. -/
structure Interrupted (p : Project) (l : Loaded) (front : List Document) (d : Document)
    (e : Error) (fs fs' : FileSystem) : Prop where
  preset : p.preset = .nearOperationFile
  sources : ∃ back, l.sources = front ++ d :: back
  fails : Layout.generate l.schema p.options l.collection p.extension d = .error e
  written : front ≠ [] ∧ ∃ ws, front.mapM (beside p l) = .ok ws ∧ Logged fs ws.reverse fs'

/-- A compilation that does not fail to write changes nothing, or it is interrupted. -/
theorem interrupted_of_compileLoaded (h : compileLoaded p l fs = .error e fs')
    (hwrite : ∀ path fault, e ≠ .unwritable path fault) :
    fs' = fs ∨ ∃ front d, Interrupted p l front d e fs fs' := by
  unfold compileLoaded at h
  cases hpreset : p.preset with
  | singleFile =>
      rw [hpreset] at h
      rcases Outcome.run_bind_eq_error.mp h with h | ⟨_, _, _, h⟩
      · rcases writing_eq_error h with ⟨_, hsame⟩ | ⟨fault, hfault⟩
        · exact .inl hsame
        · exact absurd hfault (hwrite _ _)
      · cases h
  | nearOperationFile =>
      rw [hpreset] at h
      rcases Outcome.run_bind_eq_error.mp h with h | ⟨_, _, _, h⟩
      · obtain ⟨front, d, back, files, mid, hsources, hfront, hfail⟩ :=
          Outcome.run_mapM_eq_error h
        rcases writing_eq_error hfail with ⟨hfails, rfl⟩ | ⟨fault, hfault⟩
        · by_cases hnil : front = []
          · subst hnil
            cases hfront
            exact .inl rfl
          · obtain ⟨ws, hws, hlog⟩ := logged_of_mapM (Logged.nil fs) hfront
            rw [List.append_nil] at hlog
            exact .inr ⟨front, d, hpreset, ⟨back, hsources⟩, hfails, hnil, ws, hws, hlog⟩
        · exact absurd hfault (hwrite _ _)
      · cases h

/-- Why a compilation is interrupted: operations are imported, it is not said from where, and the
document is the first one that has any. -/
structure LacksModule (p : Project) (front : List Document) (d : Document) (e : Error) : Prop where
  mode : p.options.documentMode = .external
  module : p.options.externalModule? = none
  error : e = .missingExternalModule
  front : ∀ d' ∈ front, d'.hasOperations = false
  operations : d.hasOperations = true

/-- In a project that could be read nothing else interrupts a compilation. -/
theorem Interrupted.lacksModule {front : List Document} (h : Interrupted p l front d e fs fs')
    (hload : loadAll fs p = .ok l) : LacksModule p front d e := by
  obtain ⟨back, hsources⟩ := h.sources
  have hmem : ∀ d' ∈ front ++ d :: back, d' ∈ l.documents :=
    fun d' hd' => List.mem_of_mem_filter (hsources ▸ hd' : d' ∈ l.sources)
  obtain ⟨⟨hmode, hmodule, hoperations⟩, herror⟩ :=
    (generate_eq_error_iff hload (hmem d (by simp))).mp h.fails
  constructor
  case mode => exact hmode
  case module => exact hmodule
  case error => exact herror
  case operations => exact hoperations
  case front =>
    intro d' hd'
    obtain ⟨_, ws, hws, _⟩ := h.written
    obtain ⟨w, _, hw⟩ := Outcome.exists_of_mapM hws hd'
    obtain ⟨m, hm, _⟩ := Outcome.bind_eq_ok.mp hw
    refine Bool.eq_false_iff.mpr fun hoperations' => ?_
    have hfails := (generate_eq_error_iff hload (hmem d' (by simp [hd']))).mpr
      ⟨⟨hmode, hmodule, hoperations'⟩, rfl⟩
    rw [hm] at hfails
    cases hfails

/-- A compilation that fails, but not to write, changes nothing, or it is interrupted, and that for
one reason only. -/
theorem interrupted_of_compile (h : compile p fs = .error e fs')
    (hwrite : ∀ path fault, e ≠ .unwritable path fault) :
    fs' = fs ∨ ∃ l front d, loadAll fs p = .ok l ∧ Interrupted p l front d e fs fs' ∧
      LacksModule p front d e := by
  rw [compile_eq] at h
  split at h
  · rename_i l hload
    rcases interrupted_of_compileLoaded h hwrite with hsame | ⟨front, d, hinterrupted⟩
    · exact .inl hsame
    · exact .inr ⟨l, front, d, hload, hinterrupted, hinterrupted.lacksModule hload⟩
  · cases h
    exact .inl rfl

/-- The fragment and the query of the corner, whose operations are imported from nowhere. -/
def halted : Project :=
  { cornerProject ⟨"/b.gql"⟩ with
    documents := [⟨"/b.gql"⟩, ⟨"/a.gql"⟩]
    config := [("documentMode", .string "external")] }

def haltedLoaded : Loaded :=
  { cornerLoaded ⟨"/b.gql"⟩ with documents := (cornerLoaded ⟨"/b.gql"⟩).documents.reverse }

theorem loadAll_halted : loadAll corner halted = .ok haltedLoaded := by cbv

theorem interrupted_of_compile_halted : ∃ fs',
    compile halted corner = .error .missingExternalModule fs' ∧
      (fs' = corner ∨ ∃ l front d, loadAll corner halted = .ok l ∧
        Interrupted halted l front d .missingExternalModule corner fs' ∧
        LacksModule halted front d .missingExternalModule) := by
  obtain ⟨fs', hrun⟩ : ∃ fs', compile halted corner = .error .missingExternalModule fs' := by
    rw [compile_eq, loadAll_halted]
    exact ⟨_, rfl⟩
  exact ⟨fs', hrun, interrupted_of_compile hrun nofun⟩

/-- The compilation fails because of the query, and the module of the fragment stays. -/
theorem halted_leaves_module : ∃ fs',
    compile halted corner = .error .missingExternalModule fs' ∧ fs' ≠ corner ∧
      corner.readText ⟨"/b.ts"⟩ = .error .notFound ∧ fs'.readText ⟨"/b.ts"⟩ = .ok "" := by
  obtain ⟨fs', hrun, hleft⟩ : ∃ fs', compile halted corner = .error .missingExternalModule fs' ∧
      fs'.readText ⟨"/b.ts"⟩ = .ok "" := by
    rw [compile_eq, loadAll_halted]
    exact ⟨_, rfl, rfl⟩
  have hbefore : corner.readText ⟨"/b.ts"⟩ = .error .notFound := rfl
  refine ⟨fs', hrun, ?_, hbefore, hleft⟩
  rintro rfl
  rw [hbefore] at hleft
  cases hleft

end Project

end Composables
