import Composables.Proofs.Module.Agreement
import Composables.Proofs.Module.Template
import Composables.Proofs.Module.TreeText

/-
  What the text of a value comes to. A template is a text in which substitutions stand for the texts
  of constants, and a tree is a list in which constants stand for their definitions. What is read of
  a value's text and filled in from a scope is what the value comes to there
  (`evaluate_eq_meaning`), so declaring constants fills in their texts one after another
  (`meaning_of_load`). In each mode the texts of a module come to the same definitions
  (`meanings_agree`).
-/

namespace Composables

open Graphql (Definition)
open Json (Draft)
open Template (Piece)

/-! ## Filling in -/

/-- Parts one behind the other. What a part names is put in its place. -/
def fill {α : Type} (held? : List Char → Option (List α)) (parts : List (List α ⊕ List Char)) :
    Option (List α) :=
  (parts.mapM (Sum.elim some held?)).map List.flatten

/-- What a text comes to: a text, or the trees of definitions. -/
inductive Meaning where
  | text (cs : List Char)
  | trees (drafts : List Draft)

def Held.meaning : Held → Meaning
  | .text s _ => .text s.toList
  | .tree definitions => .trees (definitions.map fun x => x.toJson.draft)

namespace Scope

variable {scope : Scope}

/-- The text that a constant holds. -/
def text? (scope : Scope) (name : List Char) : Option (List Char) :=
  match (scope.lookup (String.ofList name)).map Held.meaning with
  | some (.text cs) => some cs
  | _ => none

/-- The trees that a constant holds. -/
def trees? (scope : Scope) (name : List Char) : Option (List Draft) :=
  match (scope.lookup (String.ofList name)).map Held.meaning with
  | some (.trees drafts) => some drafts
  | _ => none

theorem get_text (scope : Scope) (r : String) :
    (scope.get false r).toOption.map (fun held => (held.text?.getD "").toList) =
      scope.text? r.toList := by
  rw [get, text?, String.ofList_toList]
  cases hlookup : scope.lookup r with
  | none => rfl
  | some held => cases held <;> rfl

theorem get_trees (scope : Scope) (r : String) :
    (scope.get true r).toOption.map (fun held => held.definitions.map fun x => x.toJson.draft) =
      scope.trees? r.toList := by
  rw [get, trees?, String.ofList_toList]
  cases hlookup : scope.lookup r with
  | none => rfl
  | some held => cases held <;> rfl

theorem isTree_of_get {tree : Bool} {r : String} {held : Held} (h : scope.get tree r = .ok held) :
    held.isTree = tree := by
  unfold get at h
  split at h
  · split at h
    · obtain rfl := Except.ok.inj h
      assumption
    · cases h
  · cases h

end Scope

/-! ## Templates -/

/-- A piece of a literal, of which a substitution names a constant. -/
def Template.Piece.part : Piece → List Char ⊕ List Char
  | .text cs => .inl cs
  | .substitution name => .inr name

theorem mapM_intersperse {α β : Type} {f : α → Option β} {sep : α} {sep' : β}
    (h : f sep = some sep') (xs : List α) :
    (xs.intersperse sep).mapM f = (xs.mapM f).map fun ys => ys.intersperse sep' := by
  induction xs with
  | nil => rfl
  | cons x xs ih =>
      cases xs with
      | nil =>
          rw [List.intersperse_singleton, List.mapM_cons, List.mapM_nil]
          cases f x <;> rfl
      | cons x' xs =>
          rw [List.intersperse_cons_cons, List.mapM_cons, List.mapM_cons, ih, h]
          simp only [List.mapM_cons]
          cases f x <;> cases f x' <;> cases xs.mapM f <;> rfl

theorem fill_own {α : Type} (held? : List Char → Option (List α)) (own : List α)
    (parts : List (List α ⊕ List Char)) :
    fill held? (.inl own :: parts) = (fill held? parts).map (own ++ ·) := by
  rw [fill, fill, List.mapM_cons]
  cases parts.mapM (Sum.elim some held?) <;> rfl

/-- References on lines of their own come to the texts on lines of their own. -/
theorem fill_references (held? : List Char → Option (List Char)) (references : List String) :
    fill held? (((references.map fun r => Piece.substitution r.toList).intersperse
        (.text ['\n'])).map Piece.part) =
      (references.mapM fun r => held? r.toList).map (['\n'].intercalate ·) := by
  have hline : (Sum.elim some held? ∘ Piece.part) (.text ['\n']) = some ['\n'] := rfl
  rw [fill, List.mapM_map, mapM_intersperse hline, List.mapM_map, Option.map_map]
  rfl

theorem evaluate_template (scope : Scope) (tag : Tag) (d : Definition) (references : List String) :
    ((DocumentValue.template tag d references).evaluate scope).toOption.map Held.meaning =
      (references.mapM fun r => scope.text? r.toList).map fun texts => .text
        (Template.margin ++ d.print.toList ++ Template.margin ++ ['\n'].intercalate texts) := by
  rw [← Outcome.toOption_mapM scope.get_text, DocumentValue.evaluate]
  cases hhelds : references.mapM (scope.get false) with
  | error => rfl
  | ok helds =>
      -- only texts are taken for a template, so none is lost
      have htexts : helds.filterMap Held.text? = helds.map fun held => held.text?.getD "" := by
        rw [← List.filterMap_eq_map]
        refine List.filterMap_congr fun held hheld => ?_
        obtain ⟨r, _, hr⟩ := Outcome.mem_of_mapM hhelds hheld
        cases held with
        | text => rfl
        | tree => cases Scope.isTree_of_get hr
      have hmargin : "\n    ".toList = Template.margin := by decide
      show some (Meaning.text _) = some (Meaning.text _)
      rw [htexts]
      simp only [String.toList_append, String.toList_intercalate, List.map_map, hmargin]
      rfl

/-! ## Trees -/

/-- Constants come to what they hold, one behind the other. -/
theorem fill_names {α : Type} (held? : List Char → Option (List α)) (references : List String) :
    fill held? (references.map fun r => .inr r.toList) =
      (references.mapM fun r => held? r.toList).map List.flatten := by
  rw [fill, List.mapM_map]
  rfl

theorem evaluate_tree (scope : Scope) {value : DocumentValue} (htree : value.isTree) :
    (value.evaluate scope).toOption.map Held.meaning =
      (fill scope.trees? (value.elements.map Element.read)).map .trees := by
  cases value with
  | template => cases htree
  | complete definitions =>
      have hall : definitions.mapM (Sum.elim some scope.trees? ∘ Element.read ∘ Sum.inl) =
          some (definitions.map fun x => [x.toJson.draft]) := List.mapM_pure ..
      rw [DocumentValue.elements, fill, List.mapM_map, List.mapM_map, Function.comp_assoc, hall]
      show some (Meaning.trees _) = some (Meaning.trees _)
      rw [← List.flatMap_def, ← List.map_eq_flatMap]
  | spliced definition references =>
      have helements : (DocumentValue.spliced definition references).elements.map Element.read =
          .inl [definition.toJson.draft] :: references.map fun r => .inr r.toList := by
        simp [DocumentValue.elements, Element.read]
      rw [helements, fill_own, fill_names, ← Outcome.toOption_mapM scope.get_trees,
        DocumentValue.evaluate]
      cases references.mapM (scope.get true) with
      | error => rfl
      | ok helds =>
          show some (Meaning.trees _) = some (Meaning.trees _)
          rw [List.map_cons, List.map_flatMap]
          rfl

/-! ## Texts of values -/

/-- A name can be told from what stands around it, in a literal and in a tree. -/
def Delimited (name : String) : Prop := '\x7d' ∉ name.toList ∧ '.' ∉ name.toList

instance (name : String) : Decidable (Delimited name) := inferInstanceAs (Decidable (_ ∧ _))

/-- What a text comes to in a scope. A tree begins with a brace. -/
def meaning? (scope : Scope) (cs : List Char) : Option Meaning :=
  if cs.head? = some '\x7b' then ((TreeText.read? cs).bind (fill scope.trees?)).map .trees
  else (Template.scan (cs.dropWhile (· != '`'))).bind fun (pieces, rest) =>
    if rest = [] then (fill scope.text? (pieces.map Piece.part)).map .text else none

theorem meaning?_template (scope : Scope) (tag : Tag) (d : Definition) {references : List String}
    (h : ∀ r ∈ references, Delimited r) :
    meaning? scope (DocumentValue.template tag d references).render.toList =
      (references.mapM fun r => scope.text? r.toList).map fun texts => .text
        (Template.margin ++ d.print.toList ++ Template.margin ++ ['\n'].intercalate texts) := by
  have hscan := Template.scan_renderTemplate (fun r hr => (h r hr).1) d.print
  have htag : tag.render.toList.all (· != '`') = true := by cases tag <;> decide +kernel
  have hhead : (tag.render.toList ++ (renderTemplate d.print references).toList).head? ≠
      some '\x7b' := by
    cases tag <;> simp [Tag.render, Template.toList_renderTemplate]
  have hdrop : (renderTemplate d.print references).toList.dropWhile (· != '`') =
      (renderTemplate d.print references).toList := by
    rw [Template.toList_renderTemplate]
    rfl
  rw [DocumentValue.render, String.toList_append, meaning?, if_neg hhead,
    List.dropWhile_append_of_pos (List.all_eq_true.mp htag), hdrop, hscan, Option.bind_some]
  dsimp only
  rw [if_pos rfl, List.map_cons, Piece.part, fill_own, fill_references, Option.map_map,
    Option.map_map]
  rfl

theorem meaning?_tree (scope : Scope) {value : DocumentValue}
    (hsome : value.elements ≠ []) (h : ∀ r ∈ value.references, Delimited r) :
    meaning? scope value.render.toList =
      (fill scope.trees? (value.elements.map Element.read)).map .trees := by
  have hhead : value.render.toList.head? = some '\x7b' := by
    have hfront : TreeText.front = '\x7b' :: TreeText.front.tail := by decide +kernel
    rw [TreeText.toList_render hsome, hfront]
    rfl
  have hnames : ∀ e ∈ value.elements, ∀ r, e = .inr r → '.' ∉ r.toList := by
    rintro _ he r rfl
    refine (h r ?_).2
    cases value with
    | template => exact absurd rfl hsome
    | complete definitions => simp [DocumentValue.elements] at he
    | spliced definition references =>
        simpa [DocumentValue.elements, DocumentValue.references] using he
  rw [meaning?, if_pos hhead, TreeText.toList_render hsome, TreeText.read?_elements hsome hnames,
    Option.bind_some]

/-- Whether a value can be read from its text. -/
structure DocumentValue.Readable (value : DocumentValue) : Prop where
  references : ∀ r ∈ value.references, Delimited r
  /-- A tree has elements. -/
  elements : value.isTree → value.elements ≠ []

/-- What a value comes to is what its text comes to. -/
theorem evaluate_eq_meaning {value : DocumentValue} (h : value.Readable) (scope : Scope) :
    (value.evaluate scope).toOption.map Held.meaning = meaning? scope value.render.toList := by
  cases htree : value.isTree with
  | true =>
      rw [evaluate_tree scope htree, meaning?_tree scope (h.elements htree) h.references]
  | false =>
      cases value with
      | complete | spliced => cases htree
      | template tag d references =>
          have hreferences : ∀ r ∈ references, Delimited r := h.references
          rw [evaluate_template, meaning?_template scope tag d hreferences]

/-- Once constants are declared, each holds what its text comes to. -/
theorem meaning_of_load {ks : List Constant} {scope : Scope} (h : load ks = .ok scope)
    (hks : ∀ k ∈ ks, k.value.Readable) :
    ∀ k ∈ ks, ∃ held, scope.lookup k.name = some held ∧
      meaning? scope k.value.render.toList = some held.meaning := by
  intro k hk
  obtain ⟨held, hlookup, hheld⟩ := lookup_of_load h k hk
  refine ⟨held, hlookup, ?_⟩
  rw [← evaluate_eq_meaning (hks k hk), hheld]
  rfl

namespace Collection

variable {c : Collection} {options : Options} {sources : List Path} {m : Module} {scope : Scope}

theorem elements_documentValue (c : Collection) (options : Options) (x : Definition)
    (ns : List String) (h : (c.documentValue options x ns).isTree) :
    (c.documentValue options x ns).elements ≠ [] := by
  rcases isTree_documentValue.mp h with hmode | hmode <;>
    simp [documentValue, hmode, DocumentValue.elements]

/-- The declarations of a module are blocks of its text, and once all are declared each constant
holds what the text behind its name comes to. -/
theorem meaning_of_generate (hm : c.generate options sources = .ok m)
    (hload : load m.constants = .ok scope)
    (hnames : ∀ k ∈ m.constants, ∀ r ∈ k.value.references, Delimited r) :
    ∀ k ∈ m.constants, ∃ text held,
      (if options.noExport then "" else "export ") ++ "const " ++ k.name ++ " = " ++ text ++ ";" ∈
        m.blocks ∧
      scope.lookup k.name = some held ∧ meaning? scope text.toList = some held.meaning := by
  obtain ⟨_, _, hmakes⟩ := makes_of_generate hm
  have hreadable : ∀ k ∈ m.constants, k.value.Readable := by
    intro k hk
    refine ⟨hnames k hk, ?_⟩
    obtain ⟨_, ⟨f, _, rfl⟩ | ⟨o, _, rfl⟩⟩ := mem_constants (hmakes.constants ▸ hk)
    · exact c.elements_documentValue options _ _
    · exact c.elements_documentValue options _ _
  intro k hk
  obtain ⟨held, hlookup, hmeaning⟩ := meaning_of_load hload hreadable k hk
  refine ⟨k.value.render, held, ?_, hlookup, hmeaning⟩
  rw [← render_of_mem_constants (hmakes.constants ▸ hk)]
  exact Module.render_mem_blocks hk

/-- A block declares a constant, and what its text comes to are the given definitions, in whatever
order and however often. -/
def DeclaresMeaning (m : Module) (options : Options) (scope : Scope) (name : String)
    (definitions : List Definition) : Prop :=
  ∃ text held,
    (if options.noExport then "" else "export ") ++ "const " ++ name ++ " = " ++ text ++ ";" ∈
      m.blocks ∧
    scope.lookup name = some held ∧ meaning? scope text.toList = some held.meaning ∧
    ∀ x, x ∈ held.definitions ↔ x ∈ definitions

/-- The constants of documents can be declared one after another in each mode. What the text of each
comes to then is its own definition and those of the fragments reached from there. -/
theorem meanings_agree {ds : List Document} (hc : ofDocuments ds [] = .ok c)
    (hinline : options.documentMode.isInline)
    (hnames : ((c.constants options).map Constant.name).Nodup)
    (hdelimited : ∀ k ∈ c.constants options, ∀ r ∈ k.value.references, Delimited r)
    (sources : List Path) :
    ∃ m scope, c.generate options sources = .ok m ∧ load m.constants = .ok scope ∧
      (∀ f ∈ c.fragments, DeclaresMeaning m options scope (options.naming.fragmentConstant f.name)
        (.fragment f.definition :: Fragment.definitions (c.reachable f.dependencies))) ∧
      ∀ o ∈ c.operations, DeclaresMeaning m options scope (options.naming.documentConstant o.name)
        (.operation o.definition :: Fragment.definitions (c.reachable o.spreads)) := by
  have hcollects := ofDocuments_eq_ok.mp hc
  obtain ⟨m, scope, hm, hload, hloaded⟩ := exists_loaded hcollects hinline hnames sources
  obtain ⟨_, _, hmakes⟩ := makes_of_generate hm
  have hmeans : ∀ k ∈ c.constants options, ∀ definitions, scope.Holds k.name definitions →
      DeclaresMeaning m options scope k.name definitions := by
    rintro k hk definitions ⟨held, hlookup, hholds⟩
    obtain ⟨text, held', hblock, hlookup', hmeaning⟩ :=
      meaning_of_generate hm hload (hmakes.constants ▸ hdelimited) k (hmakes.constants ▸ hk)
    obtain rfl := Option.some.inj (hlookup.symm.trans hlookup')
    exact ⟨text, held, hblock, hlookup, hmeaning, hholds⟩
  refine ⟨m, scope, hm, hload, ?_, ?_⟩
  · intro f hf
    have hk := mem_constants_of_fragment hinline hf
    exact hmeans _ hk _ (holds_reachable hcollects hloaded hinline hk rfl
      (hcollects.dependencies_own hf))
  · intro o ho
    have hk := mem_constants_of_operation hinline ho
    exact hmeans _ hk _ (holds_reachable hcollects hloaded hinline hk rfl
      (hcollects.spreads_own ho))

example : ∃ c, ofDocuments [lattice] [] = .ok c ∧ ((c.constants texts).map Constant.name).Nodup ∧
    ∀ k ∈ c.constants texts, ∀ r ∈ k.value.references, Delimited r :=
  ⟨_, rfl, by decide +kernel, by decide +kernel⟩

end Collection

end Composables
