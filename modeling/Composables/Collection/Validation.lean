import Composables.Collection.Basic
import Composables.Schema

/-
  Checking a collection against a schema: operations need a root type of their kind, and type conditions have to
  name declared types.
-/

namespace Composables

open Graphql (Selection)

/-- A type condition and where a message about it points to. -/
structure Condition where
  type : String
  location : Location
deriving DecidableEq, Repr

namespace Condition

/-- The condition of an inline fragment. -/
def ofSelection? (file : Path) : Selection → Option Condition
  | .inline position (some type) _ _ => some ⟨type, ⟨file, position⟩⟩
  | _ => none

/-- The conditions of the inline fragments at any depth. -/
def ofSelections (file : Path) (selections : List Selection) : List Condition :=
  (Graphql.walkAll selections).filterMap (ofSelection? file)

def ofFragment (f : Fragment) : List Condition :=
  ⟨f.condition, f.location⟩ :: ofSelections f.file f.selections

def ofOperation (o : Operation) : List Condition := ofSelections o.file o.selections

end Condition

namespace Collection

/-- All type conditions: those of the fragments, then those of the operations. -/
def conditions (c : Collection) : List Condition :=
  c.fragments.flatMap Condition.ofFragment ++ c.operations.flatMap Condition.ofOperation

/-- The first operation without a root type. -/
def missingRoot? (c : Collection) (s : Schema) : Option Error :=
  (c.operations.find? fun o => (s.rootType? o.kind).isNone).map fun o => .missingRootType o.kind o.name

/-- The first condition that names no declared type. -/
def unknownCondition? (c : Collection) (s : Schema) : Option Error :=
  (c.conditions.find? fun k => !s.hasType k.type).map fun k => .unknownType k.type k.location

/-- Checks root types first, then type conditions. -/
def validate (c : Collection) (s : Schema) : Except Error Unit :=
  match (c.missingRoot? s).or (c.unknownCondition? s) with
  | some e => .error e
  | none => .ok ()

end Collection

end Composables
