import Composables.Proofs.Collection.Merged
import Composables.Proofs.Module.Agreement

/-
  Texts and trees. A template embeds the print of a definition and a tree its encoding. They carry
  the same definition exactly if its literals are kept when it is printed (`text_carries_tree`).
-/

namespace Composables

open Graphql (Definition)

namespace Collection

variable {ds : List Document} {offered : List ImportedFragment} {c : Collection} {options : Options}

/-- The constants for one definition under the same name: a template of its print, and a tree that
begins with it. What the print is read as has the encoding in the tree exactly if the literals are
kept. -/
structure Carries (c : Collection) (options : Options) (text tree : Constant) (x : Definition) :
    Prop where
  text_mem : text ∈ c.constants options
  tree_mem : tree ∈ c.constants options.complete
  name : text.name = tree.name
  text : ∃ tag references, text.value = .template tag x references
  tree : ∃ rest, tree.value = .complete (x :: rest)
  readsBack : x.ReadsBack ↔ ∀ v ∈ x.literals, v.Kept

theorem exists_template
    (hmode : options.documentMode = .string ∨ options.documentMode = .graphQLTag)
    (x : Definition) (spreads : List String) :
    ∃ tag references, c.documentValue options x spreads = .template tag x references := by
  unfold documentValue
  rcases hmode with hmode | hmode
  · rw [hmode]
    exact ⟨_, _, rfl⟩
  · rw [hmode]
    exact ⟨_, _, rfl⟩

/-- The constants for each operation and each fragment that documents declare, as texts and as
trees. -/
structure CarriesAll (c : Collection) (options : Options) (ds : List Document) : Prop where
  operations : ∀ o ∈ ds.flatMap Document.operations, ∃ o' ∈ c.operations,
    o'.name = o.name ∧ o'.source = o.source ∧
    c.Carries options (c.operationConstant options o') (c.operationConstant options.complete o')
      (.operation o'.definition)
  fragments : ∀ f ∈ ds.flatMap Document.fragments, ∃ f' ∈ c.fragments,
    f'.name = f.name ∧ f'.source = f.source ∧
    c.Carries options (c.fragmentConstant options f') (c.fragmentConstant options.complete f')
      (.fragment f'.definition)

/-- Of documents that were read, a text and a tree carry the same definition exactly if its literals
are kept. -/
theorem text_carries_tree (hparsed : ∀ d ∈ ds, d.Parsed)
    (hc : Collection.ofDocuments ds offered = .ok c)
    (hmode : options.documentMode = .string ∨ options.documentMode = .graphQLTag) :
    c.CarriesAll options ds := by
  have hcollects := ofDocuments_eq_ok.mp hc
  have hinline : options.documentMode.isInline := by
    rcases hmode with hmode | hmode <;> rw [hmode] <;> rfl
  constructor
  · intro o ho
    obtain ⟨o', ho', hname, hsource⟩ := exists_first hcollects.operations_agree ho
    obtain ⟨d, hd, hod⟩ := List.mem_flatMap.mp (mem_of_mem_firsts ho')
    rw [← hcollects.operations] at ho'
    refine ⟨o', ho', hname, hsource.symm, mem_constants_of_operation hinline ho',
      mem_constants_of_operation rfl ho', rfl, exists_template hmode _ _, ⟨_, rfl⟩, ?_⟩
    exact Graphql.readsBack_iff
      ((hparsed d hd).formed (Document.definition_mem_of_mem_operations hod).2)
      (Document.named_of_mem_operations hod)
  · intro f hf
    obtain ⟨f', hf', hname, hsource⟩ := exists_first hcollects.fragments_agree hf
    obtain ⟨d, hd, hfd⟩ := List.mem_flatMap.mp (mem_of_mem_firsts hf')
    rw [← hcollects.perm_fragments.mem_iff] at hf'
    refine ⟨f', hf', hname, hsource.symm, mem_constants_of_fragment hinline hf',
      mem_constants_of_fragment rfl hf', rfl, exists_template hmode _ _, ⟨_, rfl⟩, ?_⟩
    exact Graphql.readsBack_iff
      ((hparsed d hd).formed (Document.definition_mem_of_mem_fragments hfd).2) nofun

theorem text_carries_tree_ask :
    Document.parse (askText "1.5") ⟨"a.graphql"⟩ = .ok (ask ⟨"a.graphql"⟩ (.float oneAndAHalf)) ∧
      ∃ c, Collection.ofDocuments [ask ⟨"a.graphql"⟩ (.float oneAndAHalf)] [] = .ok c ∧
        c.CarriesAll texts [ask ⟨"a.graphql"⟩ (.float oneAndAHalf)] ∧
        (Definition.operation (askQuery (.float oneAndAHalf))).ReadsBack := by
  have hparsed : ∀ d ∈ [ask ⟨"a.graphql"⟩ (.float oneAndAHalf)], d.Parsed := by
    simpa using ⟨_, parse_ask_half _⟩
  obtain ⟨c, hc⟩ : ∃ c,
      Collection.ofDocuments [ask ⟨"a.graphql"⟩ (.float oneAndAHalf)] [] = .ok c := ⟨_, rfl⟩
  have hcarries :=
    text_carries_tree hparsed hc (.inl (by decide +kernel) : texts.documentMode = .string ∨ _)
  refine ⟨parse_ask_half _, c, hc, hcarries, ?_⟩
  obtain ⟨o, ho, _, _, hoperation⟩ := hcarries.operations
    ⟨⟨"a.graphql"⟩, "Ask", askQuery (.float oneAndAHalf)⟩ (.head _)
  obtain rfl := Except.ok.inj hc
  obtain rfl := List.mem_singleton.mp ho
  have hkept : ∀ v ∈ [Graphql.Value.float oneAndAHalf], v.Kept := by decide +kernel
  exact hoperation.readsBack.mpr hkept

/-- A whole float is printed without its point, so that it is read as an integer. -/
theorem whole_float_not_carried : ∃ c,
    Document.parse (askText "1.0") ⟨"a.graphql"⟩ = .ok (ask ⟨"a.graphql"⟩ (.float oneAsFloat)) ∧
      Collection.ofDocuments [ask ⟨"a.graphql"⟩ (.float oneAsFloat)] [] = .ok c ∧
      ∃ o ∈ c.operations,
        (c.operationConstant texts o).value =
          .template .plain (.operation (askQuery (.float oneAsFloat))) [] ∧
        (c.operationConstant texts.complete o).value =
          .complete [.operation (askQuery (.float oneAsFloat))] ∧
        ¬ (Definition.operation (askQuery (.float oneAsFloat))).ReadsBack := by
  obtain ⟨c, hc⟩ : ∃ c,
      Collection.ofDocuments [ask ⟨"a.graphql"⟩ (.float oneAsFloat)] [] = .ok c := ⟨_, rfl⟩
  refine ⟨c, parse_ask_one _, hc, ?_⟩
  obtain rfl := Except.ok.inj hc
  refine ⟨_, List.mem_singleton_self _, rfl, rfl, ?_⟩
  have hprint : (Definition.operation (askQuery (.int 1))).print =
      (Definition.operation (askQuery (.float oneAsFloat))).print := print_ask (by decide +kernel)
  have hint : (ask ⟨"a.graphql"⟩ (.int 1)).Parsed := ⟨_, parse_ask_int _⟩
  have hkept : ∀ v ∈ [Graphql.Value.int 1], v.Kept := by decide
  obtain ⟨z, hz, hjson'⟩ :=
    (Graphql.readsBack_iff (hint.formed (.head _)) (by rintro _ ⟨⟩; nofun)).mpr hkept
  rintro ⟨y, hy, hjson⟩
  rw [hprint, hy] at hz
  obtain rfl := (List.cons.inj (Except.ok.inj hz)).1
  exact absurd (toJson_ask (hjson'.symm.trans hjson))
    (by simp [Graphql.Value.toJson, Graphql.kindNode_injective])

end Collection

end Composables
