import Composables.Proofs.Graphql.Bare
import Composables.Proofs.Layout.Separate
import Composables.Proofs.Module.Closed

/-
  Modules beside documents and one module for all. Of documents that share nothing, the modules
  beside them hold together the blocks of the one module, each in the same words (`blocks_perm`).
-/

namespace Composables

variable {c part : Collection} {options : Options} {sources : List Path} {m : Module}
  {fs fs' : List Fragment} {os : List Operation}

namespace Collection

/-- The blocks for fragments and operations, in the words of a collection. -/
def blocksFor (c : Collection) (options : Options) (fs : List Fragment) (os : List Operation) :
    List String :=
  fs.map (fun f => (c.fragmentConstant options f).render) ++
    os.map (fun o => (c.operationConstant options o).render) ++
    if options.functions then os.map fun o => Module.renderParts (functionsOf options o) else []

/-- A module in which constants are declared has the blocks for what is collected. -/
theorem blocks_of_generate (hinline : options.documentMode.isInline)
    (hm : c.generate options sources = .ok m) :
    m.blocks = c.blocksFor options c.fragments c.operations := by
  obtain ⟨is, _, rfl⟩ := generate_eq_ok.mp hm
  rw [Module.blocks, constants, if_pos hinline, blocksFor, List.map_append, List.map_map,
    List.map_map]
  refine congrArg _ ?_
  unfold bindsFunctions hasOperations
  cases options.functions with
  | false => rfl
  | true =>
      cases hoperations : c.operations with
      | nil => rfl
      | cons o os => exact List.map_map

/-- The words of a block depend on a collection only by what is reached in it. -/
theorem blocksFor_congr (h : part.reachable = c.reachable) : part.blocksFor = c.blocksFor := by
  have hvalue : part.documentValue = c.documentValue := by
    funext options definition spreads
    unfold documentValue
    rw [h]
  funext options fs os
  unfold blocksFor fragmentConstant operationConstant
  rw [hvalue]

theorem blocksFor_perm (c : Collection) (options : Options) (os : List Operation)
    (h : fs.Perm fs') :
    (c.blocksFor options fs os).Perm (c.blocksFor options fs' os) :=
  ((h.map _).append_right _).append_right _

/-- The blocks for all that documents declare are the blocks for each of them. -/
theorem flatMap_blocksFor (c : Collection) (options : Options) (ds : List Document)
    (f : Document → List Fragment) (o : Document → List Operation) :
    (ds.flatMap fun d => c.blocksFor options (f d) (o d)).Perm
      (c.blocksFor options (ds.flatMap f) (ds.flatMap o)) := by
  have hfunctions : (ds.flatMap fun d => if options.functions then (o d).map fun o =>
      Module.renderParts (functionsOf options o) else []) =
      if options.functions then (ds.flatMap o).map fun o =>
        Module.renderParts (functionsOf options o) else [] := by
    cases options.functions with
    | false => simp
    | true => exact List.map_flatMap.symm
  unfold blocksFor
  refine (List.flatMap_append_perm ds _ _).symm.trans ?_
  rw [hfunctions]
  refine List.Perm.append_right _ ?_
  refine (List.flatMap_append_perm ds _ _).symm.trans ?_
  rw [← List.map_flatMap, ← List.map_flatMap]

end Collection

namespace Layout

variable {ds : List Document} {d : Document} {schema : Schema} {extension : String}

theorem flatMap_filter_of_nil {α β : Type} {p : α → Bool} {g : α → List β} {xs : List α}
    (h : ∀ x ∈ xs, p x = false → g x = []) : (xs.filter p).flatMap g = xs.flatMap g := by
  induction xs with
  | nil => rfl
  | cons x xs ih =>
      have ih := ih fun y hy => h y (List.mem_cons_of_mem x hy)
      cases hx : p x with
      | true => rw [List.filter_cons_of_pos hx, List.flatMap_cons, List.flatMap_cons, ih]
      | false =>
          rw [List.filter_cons_of_neg (by simp [hx]), List.flatMap_cons, h x List.mem_cons_self hx,
            ih, List.nil_append]

theorem flatMap_perm_of_forall₂ {α β γ : Type} {g : α → List γ} {k : β → List γ} {xs : List α}
    {ys : List β} (h : List.Forall₂ (fun x y => (k y).Perm (g x)) xs ys) :
    (ys.flatMap k).Perm (xs.flatMap g) := by
  induction h with
  | nil => exact .refl _
  | cons hxy _ ih =>
      rw [List.flatMap_cons, List.flatMap_cons]
      exact hxy.append ih

/-- A document of a collection of separate ones gets a module with the blocks for what it
declares. -/
theorem exists_module (hsep : Separate ds) (hc : Collects ds [] c)
    (hvalid : c.validate schema = .ok ()) (hinline : options.documentMode.isInline) (hd : d ∈ ds) :
    ∃ m, generate schema options c extension d = .ok m ∧
      m.blocks.Perm (c.blocksFor options (firsts d.fragments) (firsts d.operations)) := by
  obtain ⟨part, hpart⟩ : ∃ part,
      Collects [d] (importedFor d.location c extension (!options.legacyImports)) part :=
    exists_collects hc hd (hsep.restates hc hd)
  obtain ⟨m, hm⟩ : ∃ m, part.generate options [d.location] = .ok m := part.exists_generate hinline
  refine ⟨m, ?_, ?_⟩
  · rw [generate_of_collects hpart (validate_part (hsep.restates hc hd) hvalid hpart), hm]
  · rw [Collection.blocks_of_generate hinline hm,
      Collection.blocksFor_congr (hsep.reachable_eq hc hd hpart), part_operations hpart]
    exact c.blocksFor_perm options _ (part_fragments hpart)

/-- Of documents that share nothing, every one gets its module. These hold together the blocks of
the one module for all documents, in the same words, and those documents that get none written would
add no block. -/
theorem blocks_perm (hsep : Separate ds) (hc : Collection.ofDocuments ds [] = .ok c)
    (hvalid : c.validate schema = .ok ()) (hinline : options.documentMode.isInline) :
    ∃ whole, Composables.generate schema options [] ds = .ok whole ∧
      (∃ modules, (ds.filter fun d => d.hasOperations || d.hasFragments).mapM
          (generate schema options c extension) = .ok modules ∧
        (modules.flatMap Module.blocks).Perm whole.blocks) ∧
      ∀ d ∈ ds, (d.hasOperations || d.hasFragments) = false →
        ∃ m, generate schema options c extension d = .ok m ∧ m.blocks = [] := by
  have hcollects := Collection.ofDocuments_eq_ok.mp hc
  have hskipped : ∀ d ∈ ds, (d.hasOperations || d.hasFragments) = false →
      c.blocksFor options (firsts d.fragments) (firsts d.operations) = [] := by
    intro d _ hskip
    rw [Bool.or_eq_false_iff] at hskip
    rw [Document.operations_eq_nil hskip.1, Document.fragments_eq_nil hskip.2]
    cases hfunctions : options.functions <;> simp [Collection.blocksFor, hfunctions, firsts]
  have hmodule : ∀ d ∈ ds, ∃ m, generate schema options c extension d = .ok m ∧
      m.blocks.Perm (c.blocksFor options (firsts d.fragments) (firsts d.operations)) := fun d hd =>
    exists_module hsep hcollects hvalid hinline hd
  obtain ⟨whole, hwhole⟩ : ∃ m, c.generate options (ds.map Document.location) = .ok m :=
    c.exists_generate hinline
  refine ⟨whole, ?_, ?_, ?_⟩
  · rw [generate_of_valid hc hvalid, hwhole]
  · obtain ⟨modules, hmodules, hblocks⟩ := Outcome.mapM_ok
      (ds.filter fun d => d.hasOperations || d.hasFragments)
      fun d hd => hmodule d (List.mem_of_mem_filter hd)
    refine ⟨modules, hmodules, (flatMap_perm_of_forall₂ hblocks).trans ?_⟩
    rw [flatMap_filter_of_nil hskipped, Collection.blocks_of_generate hinline hwhole,
      hsep.operations_eq hcollects]
    exact (c.flatMap_blocksFor options ds _ _).trans
      (c.blocksFor_perm options _ (hsep.fragments_perm hcollects).symm)
  · intro d hd hskip
    obtain ⟨m, hm, hblocks⟩ := hmodule d hd
    rw [hskipped d hd hskip] at hblocks
    exact ⟨m, hm, hblocks.eq_nil⟩

/-- A query, two fragments that it reaches one through the other, and a document without a name in
it. -/
def menu : List Document :=
  [⟨⟨"menu.graphql"⟩, [.operation (.bare "Menu" ["Dish"])]⟩,
    ⟨⟨"dish.graphql"⟩, [.fragment (.bare "Dish" ["Price"])]⟩,
    ⟨⟨"price.graphql"⟩, [.fragment (.bare "Price" [])]⟩,
    ⟨⟨"notes.graphql"⟩, [.shorthand .start (Graphql.bareSelections ["Dish"])]⟩]

def menuSchema : Schema := ⟨⟨some "Query", none, none⟩, ["Query", "T"]⟩

theorem blocks_perm_menu : Separate menu ∧ ∃ c whole,
    Collection.ofDocuments menu [] = .ok c ∧ c.validate menuSchema = .ok () ∧
      Composables.generate menuSchema (.ofMembers [("documentMode", .string "documentNode")]) []
        menu = .ok whole ∧
      ∃ modules, (menu.filter fun d => d.hasOperations || d.hasFragments).mapM
          (generate menuSchema (.ofMembers [("documentMode", .string "documentNode")]) c ".ts") =
            .ok modules ∧
        (modules.flatMap Module.blocks).Perm whole.blocks := by
  have hsep : Separate menu := ⟨by decide +kernel, by decide +kernel, by decide +kernel⟩
  obtain ⟨c, hc⟩ : ∃ c, Collection.ofDocuments menu [] = .ok c := ⟨_, rfl⟩
  have hvalid : c.validate menuSchema = .ok () := by
    obtain rfl := Except.ok.inj hc
    rfl
  have hinline :
      (Options.ofMembers [("documentMode", .string "documentNode")]).documentMode.isInline := by
    decide +kernel
  obtain ⟨whole, hwhole, hmodules, _⟩ := blocks_perm hsep hc hvalid hinline
  exact ⟨hsep, c, whole, hc, hvalid, hwhole, hmodules⟩

end Layout

end Composables
