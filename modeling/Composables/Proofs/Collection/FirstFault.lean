import Composables.Proofs.Collection.FirstError
import Composables.Proofs.Collection.Validation
import Composables.Proofs.Graphql.Address

/-
  What checking a collection reports. A missing root type comes first, for the first operation that
  lacks one. Otherwise the first type condition that names no declared type is reported, in the
  order of addresses: each fragment by itself and then what is inside of it, and then the operations
  (`validate_first_fault`).
-/

namespace Composables

open Graphql (Selection selectionAt?)

/-- The type condition of a fragment, and those inside of it by their addresses. -/
def Fragment.conditionAt? (f : Fragment) : Address → Option Condition
  | [] => some ⟨f.condition, f.location⟩
  | i :: a => (selectionAt? f.selections (i :: a)).bind (Condition.ofSelection? f.file)

/-- The type conditions inside of an operation by their addresses. -/
def Operation.conditionAt? (o : Operation) (a : Address) : Option Condition :=
  (selectionAt? o.selections a).bind (Condition.ofSelection? o.file)

theorem Condition.traverses_ofSelections (file : Path) (ss : List Selection) :
    Traverses (Condition.ofSelections file ss) fun a =>
      (selectionAt? ss a).bind (Condition.ofSelection? file) :=
  (Graphql.traverses_walkAll ss).filterMap _

theorem Fragment.traverses_conditions (f : Fragment) :
    Traverses (Condition.ofFragment f) f.conditionAt? :=
  (Condition.traverses_ofSelections f.file f.selections).cons rfl rfl fun _ _ => rfl

theorem Operation.traverses_conditions (o : Operation) :
    Traverses (Condition.ofOperation o) o.conditionAt? :=
  Condition.traverses_ofSelections o.file o.selections

namespace Collection

variable {c : Collection} {s : Schema} {o : Operation} {k : Condition}

/-- The type conditions of a collection by their addresses. Those of the fragments are below 0, by
the number of the fragment, and those of the operations below 1. -/
def conditionAt? (c : Collection) : Address → Option Condition
  | 0 :: a => below c.fragments Fragment.conditionAt? a
  | 1 :: a => below c.operations Operation.conditionAt? a
  | _ => none

theorem traverses_conditions (c : Collection) : Traverses c.conditions c.conditionAt? := by
  have hfragments : Traverses (c.fragments.flatMap Condition.ofFragment)
      (below c.fragments Fragment.conditionAt?) :=
    .flatMap fun f _ => f.traverses_conditions
  have hoperations : Traverses (c.operations.flatMap Condition.ofOperation)
      (below c.operations Operation.conditionAt?) :=
    .flatMap fun o _ => o.traverses_conditions
  let parts := [(c.fragments.flatMap Condition.ofFragment, below c.fragments Fragment.conditionAt?),
    (c.operations.flatMap Condition.ofOperation, below c.operations Operation.conditionAt?)]
  have hparts : Traverses (parts.flatMap Prod.fst) (below parts Prod.snd) :=
    .flatMap (List.forall_mem_cons.mpr ⟨hfragments, List.forall_mem_singleton.mpr hoperations⟩)
  have hconditions : parts.flatMap Prod.fst = c.conditions := by simp [parts, conditions]
  rw [hconditions] at hparts
  refine hparts.congr fun a => ?_
  rcases a with _ | ⟨_ | _ | _, _⟩ <;> rfl

theorem validate_of_missingRoot
    (h : IsFirst (fun o : Operation => s.rootType? o.kind = none) c.operations o) :
    c.validate s = .error (.missingRootType o.kind o.name) := by
  have hfind : (c.operations.find? fun o => (s.rootType? o.kind).isNone) = some o :=
    (find?_eq_some_iff_isFirst fun _ => Option.isNone_iff_eq_none).mpr h
  rw [validate, missingRoot?, hfind]
  rfl

theorem validate_of_unknownCondition (hroots : c.missingRoot? s = none)
    (h : c.conditions.find? (fun k => !s.hasType k.type) = some k) :
    c.validate s = .error (.unknownType k.type k.location) := by
  rw [validate, hroots, Option.none_or, unknownCondition?, h]
  rfl

theorem not_hasType_iff {type : String} : (!s.hasType type) = true ↔ type ∉ s.types := by
  simp [Schema.hasType]

/-- A collection passes exactly if its operations have root types and its type conditions, at
whatever depth, name declared types. Otherwise the first operation without a root type is reported,
or else the first type condition that names no declared type. -/
theorem validate_first_fault (c : Collection) (s : Schema) :
    (c.validate s = .ok () ↔
      (∀ o ∈ c.operations, (s.rootType? o.kind).isSome) ∧
        ∀ a k, c.conditionAt? a = some k → k.type ∈ s.types) ∧
    ((∃ o ∈ c.operations, s.rootType? o.kind = none) →
      ∃ o, IsFirst (fun o => s.rootType? o.kind = none) c.operations o ∧
        c.validate s = .error (.missingRootType o.kind o.name)) ∧
    ((∀ o ∈ c.operations, (s.rootType? o.kind).isSome) →
      (∃ a k, c.conditionAt? a = some k ∧ k.type ∉ s.types) →
      ∃ a k, IsFirstAt (fun k => k.type ∉ s.types) c.conditionAt? a k ∧
        c.validate s = .error (.unknownType k.type k.location)) := by
  have htraverses := c.traverses_conditions
  refine ⟨?_, fun hmissing => ?_, fun hroots hunknown => ?_⟩
  · rw [validate_eq_ok, ← forall_mem_conditions (p := fun t => s.hasType t = true)]
    simp only [htraverses.mem_iff, Schema.hasType, List.contains_iff_mem, forall_exists_index]
    refine and_congr_right fun _ => forall_comm
  · obtain ⟨o, ho⟩ := exists_isFirst hmissing
    exact ⟨o, ho, validate_of_missingRoot ho⟩
  · obtain ⟨a, k, hk, htype⟩ := hunknown
    have hsome : (c.conditions.find? fun k => !s.hasType k.type).isSome :=
      List.find?_isSome.mpr ⟨k, htraverses.mem_iff.mpr ⟨a, hk⟩, not_hasType_iff.mpr htype⟩
    obtain ⟨first, hfirst⟩ := Option.isSome_iff_exists.mp hsome
    obtain ⟨b, hb⟩ := htraverses.isFirstAt hfirst
    simp only [not_hasType_iff] at hb
    exact ⟨b, first, hb,
      validate_of_unknownCondition (missingRoot?_eq_none.mpr hroots) hfirst⟩

/-- A fragment on a user with an inline fragment on a ghost below a field, in front of one on a
spook. -/
def haunted : Fragment :=
  ⟨⟨"haunted.graphql"⟩, ⟨⟨1, 1⟩, "Haunted", "User", [],
    [.field ⟨2, 3⟩ none "house" [] [] [.inline ⟨3, 9⟩ (some "Ghost") [] []],
      .inline ⟨5, 7⟩ (some "Spook") [] []]⟩⟩

/-- A mutation and a query with inline fragments on a ghost. -/
def haunts : List Operation :=
  [⟨⟨"haunts.graphql"⟩, "Leave", ⟨⟨1, 1⟩, .mutation, some "Leave", [], [],
    [.inline ⟨2, 7⟩ (some "Ghost") [] []]⟩⟩,
  ⟨⟨"haunts.graphql"⟩, "Stay", ⟨⟨5, 1⟩, .query, some "Stay", [], [],
    [.inline ⟨6, 7⟩ (some "Ghost") [] []]⟩⟩]

/-- The house below the fragment's first field is the first place of a ghost. Without a root type
for mutations, the mutation is reported in its place. -/
theorem validate_first_fault_haunted :
    let c : Collection := ⟨haunts, [haunted], []⟩
    let s : Schema := ⟨⟨some "Query", some "Mutation", none⟩, ["Query", "Mutation", "User"]⟩
    let t : Schema := ⟨⟨some "Query", none, none⟩, ["Query", "User", "Ghost", "Spook"]⟩
    c.conditionAt? [0, 0, 0, 0] = some ⟨"Ghost", ⟨"haunted.graphql"⟩, ⟨3, 9⟩⟩ ∧
    (∃ a k, IsFirstAt (fun k => k.type ∉ s.types) c.conditionAt? a k ∧
      c.validate s = .error (.unknownType k.type k.location)) ∧
    c.validate s = .error (.unknownType "Ghost" ⟨⟨"haunted.graphql"⟩, ⟨3, 9⟩⟩) ∧
    (∃ o, IsFirst (fun o => t.rootType? o.kind = none) c.operations o ∧
      c.validate t = .error (.missingRootType o.kind o.name)) ∧
    c.validate t = .error (.missingRootType .mutation "Leave") := by
  intro c s t
  have hghost : c.conditionAt? [0, 0, 0, 0] = some ⟨"Ghost", ⟨"haunted.graphql"⟩, ⟨3, 9⟩⟩ := rfl
  obtain ⟨-, -, hunknown⟩ := validate_first_fault c s
  obtain ⟨-, hmissing, -⟩ := validate_first_fault c t
  refine ⟨hghost, hunknown (by decide +kernel) ⟨_, _, hghost, by decide +kernel⟩, rfl,
    hmissing (by decide +kernel), rfl⟩

end Collection

end Composables
