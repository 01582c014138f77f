import Mathlib
import Composables.Proofs.Graphql.Bare
import Composables.Proofs.Module.Generate
import Composables.Proofs.Project.Load

/-
  A document that is supplied again. Whatever it declares is represented already by a declaration
  in the same words, and stays so whatever comes in between (`Represented.foldlM`). So it changes
  neither the collection nor the error of documents that cannot be collected (`ofDocuments_again`),
  nor what is generated (`parse_again`).
-/

namespace Composables

/-! ## Declarations that are represented -/

section Represented

open Declared (name source)

variable {α : Type} [Declared α] {xs ys zs : List α} {x y : α}

/-- The first declaration of a name has the words of this one. -/
def Represented (xs : List α) (x : α) : Prop :=
  ∃ first, xs.find? (name · == name x) = some first ∧ source first = source x

theorem Represented.congr (h : Represented xs x) (hname : name x = name y)
    (hsource : source x = source y) : Represented xs y := by
  obtain ⟨first, hfirst, hwords⟩ := h
  exact ⟨first, hname ▸ hfirst, hwords.trans hsource⟩

/-- What is represented is not kept twice. -/
theorem Represented.keep_eq (h : Represented xs x) : keep xs x = .ok xs := by
  obtain ⟨first, hfirst, hsource⟩ := h
  simp only [keep, hfirst, hsource, if_true]

theorem represented_of_keep (h : keep xs x = .ok ys) : Represented ys x := by
  obtain ⟨hagree, rfl⟩ := keep_eq_ok.mp h
  have hfind := find?_addNew xs x (name x)
  rw [List.find?_append, List.find?_cons_of_pos (by simp)] at hfind
  cases hfirst : xs.find? (name · == name x) with
  | none => exact ⟨x, by rw [hfind, hfirst]; rfl, rfl⟩
  | some first => exact ⟨first, by rw [hfind, hfirst]; rfl, hagree first hfirst⟩

theorem Represented.step (h : Represented xs x) (hkeep : keep xs y = .ok ys) :
    Represented ys x := by
  obtain ⟨first, hfirst, hsource⟩ := h
  obtain ⟨_, rfl⟩ := keep_eq_ok.mp hkeep
  refine ⟨first, ?_, hsource⟩
  rw [find?_addNew, List.find?_append, hfirst]
  rfl

/-- What is represented stays so, whatever is kept behind it. -/
theorem Represented.foldlM (h : Represented xs x) (hkeep : ys.foldlM keep xs = .ok zs) :
    Represented zs x := by
  induction ys generalizing xs with
  | nil => exact Except.ok.inj hkeep ▸ h
  | cons y ys ih =>
      rw [List.foldlM_cons, Outcome.bind_eq_ok] at hkeep
      obtain ⟨next, hnext, hrest⟩ := hkeep
      exact ih (h.step hnext) hrest

theorem represented_of_foldlM (h : ys.foldlM keep xs = .ok zs) : ∀ y ∈ ys, Represented zs y := by
  induction ys generalizing xs with
  | nil => simp
  | cons y ys ih =>
      rw [List.foldlM_cons, Outcome.bind_eq_ok] at h
      obtain ⟨next, hnext, hrest⟩ := h
      exact List.forall_mem_cons.mpr ⟨(represented_of_keep hnext).foldlM hrest, ih hrest⟩

theorem foldlM_of_represented (h : ∀ y ∈ ys, Represented xs y) : ys.foldlM keep xs = .ok xs := by
  induction ys with
  | nil => rfl
  | cons y ys ih =>
      rw [List.forall_mem_cons] at h
      rw [List.foldlM_cons, h.1.keep_eq]
      exact ih h.2

end Represented

/-! ## Documents that are represented -/

namespace Document

variable {d again : Document}

/-- Documents that say the same declare operations of the same names and words. -/
theorem exists_operation (h : again.definitions = d.definitions) {o : Operation}
    (ho : o ∈ again.operations) :
    ∃ o' ∈ d.operations, o'.name = o.name ∧ o'.definition = o.definition := by
  obtain ⟨x, hx, hxo⟩ := List.mem_filterMap.mp ho
  cases x with
  | operation definition =>
      obtain ⟨n, hn, rfl⟩ := Option.map_eq_some_iff.mp hxo
      refine ⟨⟨d.location, n, definition⟩, List.mem_filterMap.mpr ⟨_, h ▸ hx, ?_⟩, rfl, rfl⟩
      exact Option.map_eq_some_iff.mpr ⟨n, hn, rfl⟩
  | shorthand => cases hxo
  | fragment => cases hxo

theorem exists_fragment (h : again.definitions = d.definitions) {f : Fragment}
    (hf : f ∈ again.fragments) : ∃ f' ∈ d.fragments, f'.definition = f.definition := by
  obtain ⟨_, hmem⟩ := definition_mem_of_mem_fragments hf
  exact ⟨⟨d.location, f.definition⟩, List.mem_filterMap.mpr ⟨_, h ▸ hmem, rfl⟩, rfl⟩

end Document

namespace Gathering

variable {g g' : Gathering} {d e again : Document} {ds : List Document}

/-- All that a document declares is represented. -/
structure Represents (g : Gathering) (d : Document) : Prop where
  operations : ∀ o ∈ d.operations, Represented g.operations o
  fragments : ∀ f ∈ d.fragments, Represented g.fragments f

theorem represents_of_addDocument (h : g.addDocument d = .ok g') : g'.Represents d := by
  obtain ⟨hoperations, hfragments⟩ := (addDocument_eq_ok g g' d).mp h
  exact ⟨represented_of_foldlM hoperations, represented_of_foldlM hfragments⟩

theorem Represents.addDocument (h : g.Represents d) (he : g.addDocument e = .ok g') :
    g'.Represents d := by
  obtain ⟨hoperations, hfragments⟩ := (addDocument_eq_ok g g' e).mp he
  exact ⟨fun o ho => (h.operations o ho).foldlM hoperations,
    fun f hf => (h.fragments f hf).foldlM hfragments⟩

/-- A document that is represented stays so, whatever documents come behind it. -/
theorem Represents.addDocuments (h : g.Represents d)
    (hds : ds.foldlM Gathering.addDocument g = .ok g') : g'.Represents d := by
  induction ds generalizing g with
  | nil => exact Except.ok.inj hds ▸ h
  | cons e ds ih =>
      rw [List.foldlM_cons, Outcome.bind_eq_ok] at hds
      obtain ⟨next, hnext, hrest⟩ := hds
      exact ih (h.addDocument hnext) hrest

/-- A document that says what a represented one says adds nothing. -/
theorem Represents.addDocument_eq (h : g.Represents d)
    (hagain : again.definitions = d.definitions) : g.addDocument again = .ok g := by
  refine (addDocument_eq_ok g g again).mpr ⟨foldlM_of_represented ?_, foldlM_of_represented ?_⟩
  · intro o ho
    obtain ⟨o', ho', hname, hdefinition⟩ := Document.exists_operation hagain ho
    exact (h.operations o' ho').congr hname
      (congrArg Graphql.OperationDefinition.print hdefinition)
  · intro f hf
    obtain ⟨f', hf', hdefinition⟩ := Document.exists_fragment hagain hf
    exact (h.fragments f' hf').congr (congrArg Graphql.FragmentDefinition.name hdefinition)
      (congrArg Graphql.FragmentDefinition.print hdefinition)

/-- Documents are gathered, or fail to be, as if none of them came again. -/
theorem ofDocuments_again (hagain : again.definitions = d.definitions)
    (front between back : List Document) :
    ofDocuments (front ++ d :: (between ++ again :: back)) =
      ofDocuments (front ++ d :: (between ++ back)) := by
  simp only [ofDocuments, List.foldlM_append, List.foldlM_cons]
  -- up to the second time the runs are one; if they come as far, the document is represented
  refine bind_congr fun g => ?_
  cases hd : g.addDocument d with
  | error e => rfl
  | ok g₁ =>
      show between.foldlM addDocument g₁ >>= _ = between.foldlM addDocument g₁ >>= _
      cases hbetween : between.foldlM addDocument g₁ with
      | error e => rfl
      | ok g₂ =>
          have hrepresents := (represents_of_addDocument hd).addDocuments hbetween
          show g₂.addDocument again >>= _ = _
          rw [hrepresents.addDocument_eq hagain]

end Gathering

/-! ## Collections and modules -/

variable {options : Options} {d again : Document}

theorem Collection.ofDocuments_again (hagain : again.definitions = d.definitions)
    (front between back : List Document) (imported : List ImportedFragment) :
    ofDocuments (front ++ d :: (between ++ again :: back)) imported =
      ofDocuments (front ++ d :: (between ++ back)) imported := by
  unfold ofDocuments
  rw [Gathering.ofDocuments_again hagain]

theorem generate_again (hagain : again.definitions = d.definitions)
    (front between back : List Document) (imported : List ImportedFragment) (schema : Schema)
    (h : options.documentMode = .external → options.externalModule? ≠ some .besideDocument) :
    generate schema options imported (front ++ d :: (between ++ again :: back)) =
      generate schema options imported (front ++ d :: (between ++ back)) := by
  unfold generate
  rw [Collection.ofDocuments_again hagain]
  refine bind_congr fun c => bind_congr fun _ => ?_
  exact c.generate_congr_sources _ _ h

/-- A text that is supplied again, at whatever place and whatever stands in between, is read again
and changes nothing: neither the collection nor what is generated from it, nor an error. Only a
module beside the document is no longer found, for then there is more than one. -/
theorem parse_again {text : String} (hd : Document.parse text d.location = .ok d) (file : Path) :
    ∃ again, Document.parse text file = .ok again ∧ again.location = file ∧
      ∀ (front between back : List Document) (imported : List ImportedFragment),
        Collection.ofDocuments (front ++ d :: (between ++ again :: back)) imported =
            Collection.ofDocuments (front ++ d :: (between ++ back)) imported ∧
          ∀ (schema : Schema) (options : Options),
            (options.documentMode = .external →
              options.externalModule? ≠ some .besideDocument) →
            generate schema options imported (front ++ d :: (between ++ again :: back)) =
              generate schema options imported (front ++ d :: (between ++ back)) := by
  obtain ⟨_, hparse⟩ := Document.parse_eq_ok hd
  obtain ⟨again, hagain, hlocation, hdefinitions⟩ : ∃ again, Document.parse text file = .ok again ∧
      again.location = file ∧ again.definitions = d.definitions :=
    ⟨⟨file, d.definitions⟩, by rw [Document.parse, hparse], rfl, rfl⟩
  refine ⟨again, hagain, hlocation, fun front between back imported => ⟨?_, ?_⟩⟩
  · exact Collection.ofDocuments_again hdefinitions front between back imported
  · exact fun schema options h => generate_again hdefinitions front between back imported schema h

def boardText : String := "query Board { post { ...Post } } fragment Post on Post { id }"

/-- What the text of the board says. -/
def board (file : Path) : Document where
  location := file
  definitions :=
    [.operation ⟨⟨1, 1⟩, .query, some "Board", [], [],
        [.field ⟨1, 15⟩ none "post" [] [] [.spread ⟨1, 25⟩ "Post" []]]⟩,
      .fragment ⟨⟨1, 34⟩, "Post", "Post", [], [.field ⟨1, 58⟩ none "id" [] [] []]⟩]

theorem parse_board (file : Path) : Document.parse boardText file = .ok (board file) := by
  unfold Document.parse
  have h : Graphql.parseDocument boardText = .ok (board file).definitions := by cbv
  rw [h]
  rfl

/-- An operation that spreads the fragment of the board. -/
def late : Document := ⟨⟨"late.graphql"⟩, [.operation (.bare "Late" ["Post"])]⟩

/-- Another fragment under the name of the board's. -/
def rival : Document := ⟨⟨"rival.graphql"⟩, [.fragment (.bare "Post" [])]⟩

def boardSchema : Schema := ⟨⟨some "Query", none, none⟩, ["Query", "Post"]⟩

/-- The board comes again from another file behind an operation that spreads its fragment; a module
is made as before. With a rival behind all that, the error names the first of the two boards. -/
theorem parse_again_board :
    Document.parse boardText ⟨"board.graphql"⟩ = .ok (board ⟨"board.graphql"⟩) ∧
      ∃ again, Document.parse boardText ⟨"copy.graphql"⟩ = .ok again ∧
        again.location = ⟨"copy.graphql"⟩ ∧
        (∃ m, generate boardSchema (.ofMembers []) [] [board ⟨"board.graphql"⟩, late, again] =
            .ok m ∧
          generate boardSchema (.ofMembers []) [] [board ⟨"board.graphql"⟩, late] = .ok m) ∧
        Collection.ofDocuments [board ⟨"board.graphql"⟩, late, again, rival] [] =
          .error (.duplicateFragment "Post" ⟨⟨"board.graphql"⟩, ⟨1, 34⟩⟩
            ⟨⟨"rival.graphql"⟩, .start⟩) := by
  have hboard : Document.parse boardText (board ⟨"board.graphql"⟩).location =
      .ok (board ⟨"board.graphql"⟩) := parse_board _
  obtain ⟨again, hagain, hlocation, hsame⟩ := parse_again hboard ⟨"copy.graphql"⟩
  refine ⟨parse_board _, again, hagain, hlocation, ?_, ?_⟩
  · have hgenerate := (hsame [] [late] [] []).2 boardSchema (.ofMembers []) (by decide +kernel)
    obtain ⟨m, hm⟩ : ∃ m, generate boardSchema (.ofMembers []) []
        [board ⟨"board.graphql"⟩, late] = .ok m := by
      rw [generate_of_valid rfl rfl]
      exact Collection.exists_generate (by decide +kernel)
    exact ⟨m, hgenerate.trans hm, hm⟩
  · have hcollection := (hsame [] [late] [rival] []).1
    refine hcollection.trans ?_
    cbv

end Composables
