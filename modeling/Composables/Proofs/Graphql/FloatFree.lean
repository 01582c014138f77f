import Composables.Graphql.Tree
import Composables.Proofs.Json.ReadBack

/-
  Trees hold no numbers. What is a number in a definition stands in its tree as a text, so a tree is
  read back from its own text (`Definition.floatFree_toJson`).
-/

namespace Composables.Graphql

/-! ## Fields -/

/-- Whether no field holds a float. -/
def FloatFree (fields : List (String × Json)) : Prop := Json.floatFreeMembers fields

section Fields

variable {name kind : String} {fields fields' : List (String × Json)} {items : List Json}

@[simp]
theorem floatFree_nil : FloatFree [] := rfl

@[simp]
theorem floatFree_cons {f : String × Json} :
    FloatFree (f :: fields) ↔ f.2.floatFree ∧ FloatFree fields :=
  Bool.and_eq_true_iff

@[simp]
theorem floatFree_append :
    FloatFree (fields ++ fields') ↔ FloatFree fields ∧ FloatFree fields' := by
  induction fields with
  | nil => simp
  | cons f fields ih => rw [List.cons_append, floatFree_cons, floatFree_cons, ih, and_assoc]

@[simp]
theorem floatFree_kindNode : (kindNode kind fields).floatFree ↔ FloatFree fields := Iff.rfl

theorem floatFreeItems_iff : Json.floatFreeItems items ↔ ∀ v ∈ items, v.floatFree := by
  induction items with
  | nil => simp [Json.floatFreeItems]
  | cons v items ih => rw [Json.floatFreeItems, Bool.and_eq_true_iff, ih, List.forall_mem_cons]

@[simp]
theorem floatFree_listField : FloatFree (listField name items) ↔ Json.floatFreeItems items := by
  cases items with
  | nil => exact iff_of_true rfl rfl
  | cons v items => exact floatFree_cons.trans (and_iff_left rfl)

@[simp]
theorem floatFree_optionField {node : Option Json} :
    FloatFree (optionField name node) ↔ ∀ v ∈ node, v.floatFree := by
  cases node <;> simp [optionField]

@[simp]
theorem floatFree_nameNode (name : String) : (nameNode name).floatFree := rfl

@[simp]
theorem floatFree_namedTypeNode (name : String) : (namedTypeNode name).floatFree := rfl

end Fields

/-! ## Trees -/

theorem TypeRef.floatFree_toJson (t : TypeRef) : t.toJson.floatFree := by
  induction t with
  | named name => rfl
  | list inner ih => simp [toJson, ih]
  | nonNull inner ih => simp [toJson, ih]

mutual

theorem Value.floatFree_toJson : ∀ v : Value, v.toJson.floatFree
  | .variable _ => rfl
  | .int _ => rfl
  | .float _ => rfl
  | .string _ => rfl
  | .boolean _ => rfl
  | .null => rfl
  | .enum _ => rfl
  | .list items => by simp [Value.toJson, Json.floatFree, floatFree_valueNodes items]
  | .object fields => by simp [Value.toJson, Json.floatFree, floatFree_labelledNodes _ fields]

theorem floatFree_valueNodes : ∀ vs : List Value, Json.floatFreeItems (valueNodes vs)
  | [] => rfl
  | v :: vs => by
    rw [valueNodes, Json.floatFreeItems, Value.floatFree_toJson v, floatFree_valueNodes vs]
    rfl

theorem floatFree_labelledNodes (kind : String) :
    ∀ fields : List (String × Value), Json.floatFreeItems (labelledNodes kind fields)
  | [] => rfl
  | (k, v) :: fields => by
    have hnode : (kindNode kind [("name", nameNode k), ("value", v.toJson)]).floatFree := by
      simp [Value.floatFree_toJson v]
    rw [labelledNodes, Json.floatFreeItems, hnode, floatFree_labelledNodes kind fields]
    rfl

end

@[simp]
theorem floatFree_argumentsField (arguments : Arguments) : FloatFree (argumentsField arguments) :=
  floatFree_listField.mpr (floatFree_labelledNodes _ arguments)

theorem Directive.floatFree_toJson (d : Directive) : d.toJson.floatFree := by
  simp [toJson]

@[simp]
theorem floatFree_directivesField (ds : List Directive) : FloatFree (directivesField ds) :=
  floatFree_listField.mpr (floatFreeItems_iff.mpr
    (List.forall_mem_map.mpr fun d _ => d.floatFree_toJson))

theorem floatFree_setNode {ss : List Selection} :
    (setNode ss).floatFree ↔ Json.floatFreeItems (selectionNodes ss) := by
  simp [setNode]

mutual

theorem Selection.floatFree_toJson : ∀ s : Selection, s.toJson.floatFree
  | .field _ alias? name arguments directives selections => by
    have hset := floatFree_setNode.mpr (floatFree_selectionNodes selections)
    have hselections : FloatFree
        (if selections.isEmpty then [] else [("selectionSet", setNode selections)]) := by
      split <;> simp [hset]
    rw [Selection.toJson, floatFree_kindNode, floatFree_append, floatFree_append]
    simp [hselections, -List.isEmpty_iff]
  | .spread _ name directives => by
    simp [Selection.toJson]
  | .inline _ condition? directives selections => by
    have hset := floatFree_setNode.mpr (floatFree_selectionNodes selections)
    simp [Selection.toJson, hset]

theorem floatFree_selectionNodes : ∀ ss : List Selection, Json.floatFreeItems (selectionNodes ss)
  | [] => by
    rw [selectionNodes]
    rfl
  | s :: ss => by
    rw [selectionNodes, Json.floatFreeItems, Selection.floatFree_toJson s,
      floatFree_selectionNodes ss]
    rfl

end

theorem VariableDefinition.floatFree_toJson (v : VariableDefinition) : v.toJson.floatFree := by
  simp [toJson, Value.floatFree_toJson, TypeRef.floatFree_toJson]

theorem floatFree_operationNode (kind : OperationKind) (name? : Option String)
    (definitions : List VariableDefinition) (directives : List Directive)
    (selections : List Selection) :
    (operationNode kind name? definitions directives selections).floatFree := by
  have hset := floatFree_setNode.mpr (floatFree_selectionNodes selections)
  have hdefinitions : Json.floatFreeItems (definitions.map VariableDefinition.toJson) :=
    floatFreeItems_iff.mpr (List.forall_mem_map.mpr fun v _ => v.floatFree_toJson)
  simp [operationNode, Json.floatFree, hset, hdefinitions]

/-- The tree of a definition holds no float. -/
theorem Definition.floatFree_toJson (d : Definition) : d.toJson.floatFree := by
  cases d with
  | shorthand _ selections => exact floatFree_operationNode ..
  | operation d => exact floatFree_operationNode ..
  | fragment d =>
      have hset := floatFree_setNode.mpr (floatFree_selectionNodes d.selections)
      simp [toJson, FragmentDefinition.toJson, hset]

end Composables.Graphql
