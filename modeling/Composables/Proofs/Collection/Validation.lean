import Composables.Collection.Validation

/-
  Checking a collection succeeds exactly if its operations have root types and its type conditions
  name types.
-/

namespace Composables

/-- The types that an operation asks for below its root. -/
def Operation.conditionTypes (o : Operation) : List String :=
  (Condition.ofOperation o).map Condition.type

/-- The types that a fragment asks for. -/
def Fragment.conditionTypes (f : Fragment) : List String :=
  (Condition.ofFragment f).map Condition.type

namespace Collection

variable {c : Collection} {s : Schema}

theorem missingRoot?_eq_none :
    c.missingRoot? s = none ↔ ∀ o ∈ c.operations, (s.rootType? o.kind).isSome := by
  rw [missingRoot?, Option.map_eq_none_iff, List.find?_eq_none]
  refine forall₂_congr fun o _ => ?_
  cases s.rootType? o.kind <;> simp

theorem unknownCondition?_eq_none :
    c.unknownCondition? s = none ↔ ∀ k ∈ c.conditions, s.hasType k.type := by
  rw [unknownCondition?, Option.map_eq_none_iff, List.find?_eq_none]
  refine forall₂_congr fun k _ => ?_
  cases s.hasType k.type <;> simp

theorem forall_mem_conditions {p : String → Prop} : (∀ k ∈ c.conditions, p k.type) ↔
    (∀ f ∈ c.fragments, ∀ t ∈ f.conditionTypes, p t) ∧
      ∀ o ∈ c.operations, ∀ t ∈ o.conditionTypes, p t := by
  simp only [conditions, Fragment.conditionTypes, Operation.conditionTypes, List.mem_append,
    List.mem_flatMap,
    List.mem_map]
  grind

theorem validate_eq_ok : c.validate s = .ok () ↔
    (∀ o ∈ c.operations, (s.rootType? o.kind).isSome) ∧
      (∀ f ∈ c.fragments, ∀ t ∈ f.conditionTypes, s.hasType t) ∧
        ∀ o ∈ c.operations, ∀ t ∈ o.conditionTypes, s.hasType t := by
  rw [← forall_mem_conditions (p := fun t => s.hasType t = true), ← missingRoot?_eq_none,
    ← unknownCondition?_eq_none,
    ← Option.or_eq_none_iff, validate]
  cases (c.missingRoot? s).or (c.unknownCondition? s) <;> simp

end Collection

end Composables
