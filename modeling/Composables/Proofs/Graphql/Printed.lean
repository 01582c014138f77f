import Composables.Proofs.Collection.Gather
import Composables.Proofs.Collection.Validation

/-
  What the print of a definition tells of it. The kind of an operation can be read off its first
  letter; that spreads and type conditions can be read off as well is stated of given definitions
  (`PrintTells`), and holds of all that the grammar gives (`printTells_of_formed`).
-/

namespace Composables

namespace Graphql

/-- The type that an inline fragment asks for. -/
def Selection.condition? : Selection → Option String
  | .inline _ condition? _ _ => condition?
  | _ => none

/-- The types that a definition asks for: that of a fragment, and those of inline fragments at any
depth. -/
def Definition.conditions (x : Definition) : List String :=
  (match x with
    | .fragment d => [d.condition]
    | _ => []) ++ (walkAll x.selections).filterMap Selection.condition?

/-- Of two definitions with one print each spreads the same fragments and asks for the same
types. -/
def PrintTells (xs : List Definition) : Prop :=
  ∀ x ∈ xs, ∀ y ∈ xs, x.print = y.print → spreads x.selections ⊆ spreads y.selections ∧
    x.conditions ⊆ y.conditions

instance (xs : List Definition) : Decidable (PrintTells xs) :=
  inferInstanceAs (Decidable (∀ x ∈ xs, ∀ y ∈ xs, x.print = y.print → _ ∧ _))

theorem OperationDefinition.head?_print (d : OperationDefinition) :
    d.print.toList.head? = d.kind.keyword.toList.head? := by
  unfold print
  cases d.kind <;> simp [OperationKind.keyword]

/-- Operations of different kinds are printed with different keywords. -/
theorem OperationDefinition.kind_of_print {d e : OperationDefinition} (h : d.print = e.print) :
    d.kind = e.kind := by
  have hhead : d.kind.keyword.toList.head? = e.kind.keyword.toList.head? := by
    rw [← head?_print, ← head?_print, h]
  revert hhead
  cases d.kind <;> cases e.kind <;> decide

end Graphql

open Graphql (Definition PrintTells)

variable {xs : List Definition}

theorem types_ofSelections (file : Path) (selections : List Graphql.Selection) :
    (Condition.ofSelections file selections).map Condition.type =
      (Graphql.walkAll selections).filterMap Graphql.Selection.condition? := by
  rw [Condition.ofSelections, List.map_filterMap]
  congr 1
  funext s
  cases s with
  | inline position condition? directives selections => cases condition? <;> rfl
  | field => rfl
  | spread => rfl

theorem Operation.conditionTypes_eq (o : Operation) :
    o.conditionTypes = (Definition.operation o.definition).conditions :=
  types_ofSelections _ _

theorem Fragment.conditionTypes_eq (f : Fragment) :
    f.conditionTypes = (Definition.fragment f.definition).conditions :=
  congrArg (f.condition :: ·) (types_ofSelections _ _)

/-- Operations with one print have one kind, and the one asks for no more than the other. -/
theorem Graphql.PrintTells.operation (h : PrintTells xs) {o o' : Operation}
    (ho : .operation o.definition ∈ xs) (ho' : .operation o'.definition ∈ xs)
    (hsource : o.source = o'.source) :
    o'.kind = o.kind ∧ o.spreads ⊆ o'.spreads ∧ o.conditionTypes ⊆ o'.conditionTypes := by
  rw [o.conditionTypes_eq, o'.conditionTypes_eq]
  exact ⟨Graphql.OperationDefinition.kind_of_print hsource.symm, h _ ho _ ho' hsource⟩

/-- Of fragments with one print, the one asks for no more than the other. -/
theorem Graphql.PrintTells.fragment (h : PrintTells xs) {f f' : Fragment}
    (hf : .fragment f.definition ∈ xs) (hf' : .fragment f'.definition ∈ xs)
    (hsource : f.source = f'.source) :
    f.dependencies ⊆ f'.dependencies ∧ f.conditionTypes ⊆ f'.conditionTypes := by
  rw [f.conditionTypes_eq, f'.conditionTypes_eq]
  exact h _ hf _ hf' hsource

end Composables
