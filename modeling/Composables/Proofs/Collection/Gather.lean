import Composables.Proofs.Collection.Declared
import Composables.Proofs.Fragment.Order

/-
  Collecting documents. `Collects` says what a collection holds of the documents and of the
  fragments offered to it; `ofDocuments_eq_ok` says that this is what collecting them makes, and
  when it succeeds.
-/

namespace Composables

open Graphql (Definition)

/-! ## What documents declare -/

/-- The operation that a definition of a file declares. -/
def Graphql.Definition.operation? (file : Path) : Definition → Option Operation
  | .operation definition => Operation.ofDefinition? file definition
  | _ => none

/-- The fragment that a definition of a file declares. -/
def Graphql.Definition.fragment? (file : Path) : Definition → Option Fragment
  | .fragment definition => some { file, definition }
  | _ => none

namespace Document

variable {d : Document}

/-- The operations with a name. -/
def operations (d : Document) : List Operation :=
  d.definitions.filterMap (Definition.operation? d.location)

def fragments (d : Document) : List Fragment :=
  d.definitions.filterMap (Definition.fragment? d.location)

theorem definition_mem_of_mem_operations {o : Operation} (h : o ∈ d.operations) :
    o.file = d.location ∧ .operation o.definition ∈ d.definitions := by
  obtain ⟨x, hx, ho⟩ := List.mem_filterMap.mp h
  cases x with
  | operation definition =>
      obtain ⟨n, _, rfl⟩ := Option.map_eq_some_iff.mp ho
      exact ⟨rfl, hx⟩
  | shorthand => cases ho
  | fragment => cases ho

theorem definition_mem_of_mem_fragments {f : Fragment} (h : f ∈ d.fragments) :
    f.file = d.location ∧ .fragment f.definition ∈ d.definitions := by
  obtain ⟨x, hx, hf⟩ := List.mem_filterMap.mp h
  cases x with
  | fragment definition =>
      obtain rfl := Option.some.inj hf
      exact ⟨rfl, hx⟩
  | shorthand => cases hf
  | operation => cases hf

theorem operations_eq_nil (h : d.hasOperations = false) : d.operations = [] := by
  refine List.filterMap_eq_nil_iff.mpr ?_
  intro x hx
  have hname := List.any_eq_false.mp h x hx
  cases x with
  | operation definition =>
      rw [Definition.operation?, Operation.ofDefinition?, Option.map_eq_none_iff]
      simpa [Definition.operationName?] using hname
  | shorthand => rfl
  | fragment => rfl

theorem fragments_eq_nil (h : d.hasFragments = false) : d.fragments = [] := by
  refine List.filterMap_eq_nil_iff.mpr ?_
  intro x hx
  have hfragment := List.any_eq_false.mp h x hx
  cases x with
  | fragment => exact absurd rfl hfragment
  | shorthand => rfl
  | operation => rfl

end Document

/-! ## Gathering -/

namespace Gathering

variable {g g' : Gathering}

/-- A definition is added by keeping what it declares. -/
theorem add_eq_ok (file : Path) (g g' : Gathering) (x : Definition) : g.add file x = .ok g' ↔
    (x.operation? file).toList.foldlM keep g.operations = .ok g'.operations ∧
      (x.fragment? file).toList.foldlM keep g.fragments = .ok g'.fragments := by
  obtain ⟨operations, fragments⟩ := g'
  have hnothing : Except.ok (ε := Error) g = .ok ⟨operations, fragments⟩ ↔
      Except.ok (ε := Error) g.operations = .ok operations ∧
        Except.ok (ε := Error) g.fragments = .ok fragments := by
    cases g
    simp
  cases x with
  | shorthand => exact hnothing
  | operation definition =>
      simp only [add, Definition.operation?, Definition.fragment?, Option.toList_none,
        Outcome.foldlM_nil]
      cases Operation.ofDefinition? file definition with
      | none => exact hnothing
      | some o =>
          rw [Option.toList_some, Outcome.foldlM_singleton]
          show (keep g.operations o).map _ = _ ↔ _
          rw [Outcome.map_eq_ok]
          simp
  | fragment definition =>
      show (keep g.fragments { file, definition }).map _ = _ ↔
        Except.ok g.operations = _ ∧ [Fragment.mk file definition].foldlM keep g.fragments = _
      rw [Outcome.foldlM_singleton, Outcome.map_eq_ok]
      simp [and_comm]

/-- Runs over what definitions declare, taken together for operations and for fragments. -/
theorem foldlM_eq_ok {α : Type} {f : Gathering → α → Except Error Gathering}
    {os : α → List Operation} {fs : α → List Fragment}
    (hf : ∀ g g' x, f g x = .ok g' ↔ (os x).foldlM keep g.operations = .ok g'.operations ∧
      (fs x).foldlM keep g.fragments = .ok g'.fragments) (xs : List α) : xs.foldlM f g = .ok g' ↔
      (xs.flatMap os).foldlM keep g.operations = .ok g'.operations ∧
        (xs.flatMap fs).foldlM keep g.fragments = .ok g'.fragments := by
  induction xs generalizing g with
  | nil =>
      cases g
      cases g'
      simp [pure, Except.pure]
  | cons x xs ih =>
      rw [List.foldlM_cons, Outcome.bind_eq_ok, List.flatMap_cons, List.flatMap_cons,
        List.foldlM_append,
        List.foldlM_append, Outcome.bind_eq_ok, Outcome.bind_eq_ok]
      constructor
      · rintro ⟨next, hx, hxs⟩
        obtain ⟨ho, hf⟩ := (hf _ _ x).mp hx
        obtain ⟨hos, hfs⟩ := ih.mp hxs
        exact ⟨⟨_, ho, hos⟩, _, hf, hfs⟩
      · rintro ⟨⟨operations, ho, hos⟩, fragments, hf', hfs⟩
        exact ⟨⟨operations, fragments⟩, (hf _ _ x).mpr ⟨ho, hf'⟩, ih.mpr ⟨hos, hfs⟩⟩

theorem flatMap_toList {α β : Type} (f : α → Option β) (xs : List α) :
    xs.flatMap (fun x => (f x).toList) = xs.filterMap f :=
      (List.filterMap_eq_flatMap_toList f xs).symm

theorem addDocument_eq_ok (g g' : Gathering) (d : Document) : g.addDocument d = .ok g' ↔
    d.operations.foldlM keep g.operations = .ok g'.operations ∧
      d.fragments.foldlM keep g.fragments = .ok g'.fragments := by
  refine (foldlM_eq_ok (add_eq_ok d.location) d.definitions).trans ?_
  rw [flatMap_toList, flatMap_toList]
  rfl

/-- Documents are gathered if what they declare under one name agrees. -/
theorem ofDocuments_eq_ok {ds : List Document} : ofDocuments ds = .ok g ↔
    (Agree (ds.flatMap Document.operations) ∧
        g.operations = firsts (ds.flatMap Document.operations)) ∧
      Agree (ds.flatMap Document.fragments) ∧
        g.fragments = firsts (ds.flatMap Document.fragments) := by
  rw [← foldlM_keep_eq_ok, ← foldlM_keep_eq_ok]
  exact foldlM_eq_ok addDocument_eq_ok ds

theorem unknownSpread?_eq_none {known : String → Bool} :
    g.unknownSpread? known = none ↔ ∀ o ∈ g.operations, ∀ s ∈ o.spreads, known s = true := by
  rw [unknownSpread?, List.findSome?_eq_none_iff]
  simp

end Gathering

/-! ## Collecting -/

/-- What a collection holds: the first declarations of the documents, the fragments in order, and of
the fragments that were offered those that no document declares. -/
structure Collects (ds : List Document) (offered : List ImportedFragment) (c : Collection) :
    Prop where
  operations_agree : Agree (ds.flatMap Document.operations)
  fragments_agree : Agree (ds.flatMap Document.fragments)
  operations : c.operations = firsts (ds.flatMap Document.operations)
  imported : c.imported =
    offered.filter fun e => !(firsts (ds.flatMap Document.fragments)).any fun f => f.name == e.name
  known : ∀ o ∈ c.operations, ∀ s ∈ o.spreads,
    s ∈ (firsts (ds.flatMap Document.fragments)).map Fragment.name ∨
      s ∈ c.imported.map ImportedFragment.name
  order : Fragment.order (firsts (ds.flatMap Document.fragments))
      (c.imported.map ImportedFragment.name) =
    .ok c.fragments

theorem Collection.ofDocuments_eq_ok {ds : List Document} {offered : List ImportedFragment}
    {c : Collection} :
    ofDocuments ds offered = .ok c ↔ Collects ds offered c := by
  unfold ofDocuments
  rw [Outcome.bind_eq_ok]
  constructor
  · rintro ⟨g, hg, h⟩
    obtain ⟨⟨hoa, ho⟩, hfa, hf⟩ := Gathering.ofDocuments_eq_ok.mp hg
    dsimp only at h
    split at h
    · cases h
    · rename_i hnone
      obtain ⟨fragments, horder, h⟩ := Outcome.bind_eq_ok.mp h
      obtain rfl := Except.ok.inj h
      rw [Gathering.unknownSpread?_eq_none] at hnone
      rw [hf] at horder
      rw [hf] at hnone ⊢
      refine ⟨hoa, hfa, ho, rfl, ?_, horder⟩
      simpa using hnone
  · intro h
    refine ⟨⟨firsts (ds.flatMap Document.operations), firsts (ds.flatMap Document.fragments)⟩,
      Gathering.ofDocuments_eq_ok.mpr ⟨⟨h.operations_agree, rfl⟩, h.fragments_agree, rfl⟩, ?_⟩
    dsimp only
    rw [← h.operations, ← h.imported]
    split
    · rename_i e hsome
      rw [Gathering.unknownSpread?_eq_none.mpr ?_] at hsome
      · cases hsome
      · intro o ho s hs
        simpa using h.known o ho s hs
    · rw [h.order]
      rfl

/-- Documents can be collected if those of one name agree, the fragments make no cycle, and all that
is spread is declared or offered. -/
theorem Collection.ofDocuments_ok {ds : List Document} {offered : List ImportedFragment}
    (hoperations : Agree (ds.flatMap Document.operations))
    (hfragments : Agree (ds.flatMap Document.fragments))
    (hacyclic : Acyclic (Fragment.Spreads (firsts (ds.flatMap Document.fragments))))
    (hspreads : ∀ o ∈ firsts (ds.flatMap Document.operations), ∀ s ∈ o.spreads,
      s ∈ (firsts (ds.flatMap Document.fragments)).map Fragment.name ∨
      s ∈ offered.map ImportedFragment.name)
    (hdependencies : ∀ f ∈ firsts (ds.flatMap Document.fragments), ∀ s ∈ f.dependencies,
      s ∈ (firsts (ds.flatMap Document.fragments)).map Fragment.name ∨
      s ∈ offered.map ImportedFragment.name) :
    ∃ c, ofDocuments ds offered = .ok c := by
  generalize hfs : firsts (ds.flatMap Document.fragments) = fs at *
  -- what is offered under a name that is declared is not imported, and not needed either
  have hknown : ∀ s, s ∈ fs.map Fragment.name ∨ s ∈ offered.map ImportedFragment.name →
      s ∈ fs.map Fragment.name ∨
        s ∈ (offered.filter fun e => !fs.any fun f => f.name == e.name).map
          ImportedFragment.name := by
    rintro s (hs | hs)
    · exact .inl hs
    · by_cases hown : s ∈ fs.map Fragment.name
      · exact .inl hown
      · obtain ⟨e, he, rfl⟩ := List.mem_map.mp hs
        refine .inr (List.mem_map_of_mem (List.mem_filter.mpr ⟨he, ?_⟩))
        simpa using hown
  obtain ⟨fragments, horder⟩ := Fragment.order_ok hacyclic fun f hf s hs =>
    hknown s (hdependencies f hf s hs)
  refine ⟨⟨firsts (ds.flatMap Document.operations), fragments, _⟩, ofDocuments_eq_ok.mpr
    ⟨hoperations, hfragments, rfl, rfl, ?_, ?_⟩⟩
  · intro o ho s hs
    rw [hfs]
    exact hknown s (hspreads o ho s hs)
  · rw [hfs]
    exact horder

/-! ## What a collection holds -/

namespace Collects

variable {ds : List Document} {offered : List ImportedFragment} {c : Collection}

theorem perm_fragments (h : Collects ds offered c) :
    c.fragments.Perm (firsts (ds.flatMap Document.fragments)) :=
  Fragment.perm_of_order h.order

theorem nodup_fragments (h : Collects ds offered c) : (c.fragments.map Fragment.name).Nodup :=
  (h.perm_fragments.map Fragment.name).nodup_iff.mpr
    (nodup_names_firsts (ds.flatMap Document.fragments))

theorem nodup_operations (h : Collects ds offered c) :
    (c.operations.map Operation.name).Nodup := by
  rw [h.operations]
  exact nodup_names_firsts (ds.flatMap Document.operations)

/-- A name is that of one fragment only. -/
theorem fragment_eq (h : Collects ds offered c) {f g : Fragment} (hf : f ∈ c.fragments)
    (hg : g ∈ c.fragments) (hname : f.name = g.name) : f = g :=
  List.inj_on_of_nodup_map h.nodup_fragments hf hg hname

theorem arranged (h : Collects ds offered c) :
    Fragment.Arranged (c.imported.map ImportedFragment.name) c.fragments :=
      Fragment.arranged_of_order h.order

/-- A fragment that is imported has no name that is declared. -/
theorem imported_fresh (h : Collects ds offered c) :
    ∀ n ∈ c.imported.map ImportedFragment.name, n ∉ c.fragments.map Fragment.name := by
  intro n hn hm
  obtain ⟨e, he, rfl⟩ := List.mem_map.mp hn
  obtain ⟨f, hf, hname⟩ := List.mem_map.mp hm
  rw [h.imported, List.mem_filter] at he
  have hany : (firsts (ds.flatMap Document.fragments)).any (fun f => f.name == e.name) = true :=
    List.any_eq_true.mpr ⟨f, h.perm_fragments.mem_iff.mp hf, by simpa using hname⟩
  rw [hany] at he
  exact absurd he.2 (by decide)

/-- So its name stands for the imported one. -/
theorem isImported (h : Collects ds offered c) {n : String}
    (hn : n ∈ c.imported.map ImportedFragment.name) : c.isImported n := by
  have hfresh := h.imported_fresh n hn
  rw [Collection.isImported, Bool.and_eq_true, Bool.not_eq_true', ← Bool.not_eq_true]
  exact ⟨by simpa using hfresh, by simpa using hn⟩

theorem acyclic (h : Collects ds offered c) : Acyclic (Fragment.Spreads c.fragments) :=
  h.arranged.acyclic h.nodup_fragments h.imported_fresh

/-- If nothing is offered, each fragment stands behind all that it spreads. -/
theorem arranged_own (h : Collects ds [] c) : Fragment.Arranged [] c.fragments := by
  have harranged := h.arranged
  rw [h.imported] at harranged
  exact harranged

/-- Whatever an operation spreads is declared or imported. -/
theorem spreads_known (h : Collects ds offered c) {o : Operation} (ho : o ∈ c.operations)
    {s : String} (hs : s ∈ o.spreads) :
    s ∈ c.fragments.map Fragment.name ∨ s ∈ c.imported.map ImportedFragment.name :=
  (h.known o ho s hs).imp_left (h.perm_fragments.map Fragment.name).mem_iff.mpr

theorem dependencies_own (h : Collects ds [] c) {f : Fragment} (hf : f ∈ c.fragments) :
    ∀ s ∈ f.dependencies, s ∈ c.fragments.map Fragment.name := fun _ hs =>
  (h.arranged_own.mem hf hs).resolve_right List.not_mem_nil

theorem spreads_own (h : Collects ds [] c) {o : Operation} (ho : o ∈ c.operations) :
    ∀ s ∈ o.spreads, s ∈ c.fragments.map Fragment.name := by
  intro s hs
  have hknown := h.spreads_known ho hs
  rw [h.imported] at hknown
  exact hknown.resolve_right List.not_mem_nil

end Collects

end Composables
