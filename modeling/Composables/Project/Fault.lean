import Composables.Json.Printer
import Composables.Text.Quoted

/-
  What can be wrong with a project file.
-/

namespace Composables.Project

/-- What stands where something else was expected. -/
inductive Found where
  | null
  | boolean (b : Bool)
  | integer (n : Int)
  | float (x : Decimal.Binary64)
  | string (s : String)
  | sequence
  | map
deriving DecidableEq, Repr

def Found.describe : Found → String
  | .null => "null"
  | .boolean b => "boolean `" ++ (if b then "true" else "false") ++ "`"
  | .integer n => "integer `" ++ toString n ++ "`"
  | .float x => "floating point `" ++ Json.number.render x ++ "`"
  | .string s => "string " ++ Text.showQuoted s
  | .sequence => "sequence"
  | .map => "map"

inductive Fault where
  | missingField (name : String)
  | duplicateField (name : String)
  | unknownVariant (name : String)
  | invalidType (found : Found) (expected : String)
  /-- The text is no JSON, or has a form that no project has. -/
  | malformed
deriving DecidableEq, Repr

def Fault.message : Fault → String
  | .missingField name => "missing field `" ++ name ++ "`"
  | .duplicateField name => "duplicate field `" ++ name ++ "`"
  | .unknownVariant name =>
    "unknown variant `" ++ name ++ "`, expected `single-file` or `near-operation-file`"
  | .invalidType found expected => "invalid type: " ++ found.describe ++ ", expected " ++ expected
  | .malformed => "invalid JSON"

end Composables.Project
