import Composables.Distinct
import Composables.Options

/-
  The lines in front of a module's declarations: imports, and the helper types of a client library.
-/

namespace Composables

inductive Import where
  /-- The tag of templates, under the name `gql`. -/
  | tag (spec : ImportSpec)
  /-- The type of document trees. -/
  | documentNode (spec : ImportSpec)
  /-- All constants of a module, under the name `Operations`. -/
  | operations (module : String)
  /-- Constants that hold fragments. -/
  | fragments (module : String) (constants : List String)
  /-- All of a client library, under a name of its own. -/
  | library (name module : String)
  /-- The type of getters. -/
  | reactiveFunction
  /-- The type of a type without some of its keys. -/
  | omit
deriving DecidableEq, Repr

namespace Import

/-- `name`, or `export as name` where the two differ. -/
def binding (name : String) (e : String) : String := if e = name then name else e ++ " as " ++ name

def importFrom (what module : String) : String := what ++ " from '" ++ module ++ "';"

def render : Import → String
  | .tag ⟨module, none⟩ => importFrom "import gql" module
  | .tag ⟨module, some e⟩ => importFrom ("import \x7b " ++ binding "gql" e ++ " \x7d") module
  | .documentNode ⟨module, e⟩ =>
    importFrom ("import type \x7b " ++ binding "DocumentNode" (e.getD "DocumentNode") ++ " \x7d") module
  | .operations module => importFrom "import * as Operations" module
  | .fragments module constants => importFrom ("import \x7b " ++ ", ".intercalate constants ++ " \x7d") module
  | .library name module => importFrom ("import * as " ++ name) module
  | .reactiveFunction => "export type ReactiveFunction<TParam> = () => TParam;"
  | .omit => "export type Omit<T, K extends keyof T> = Pick<T, Exclude<keyof T, K>>;"

end Import

/-- Puts a constant to its module, behind the constants that are there. -/
def addConstant (groups : List (String × List String)) (module constant : String) : List (String × List String) :=
  match groups with
  | [] => [(module, [constant])]
  | (m, cs) :: groups =>
    if m = module then (m, Distinct.push cs constant) :: groups else (m, cs) :: addConstant groups module constant

/-- Constants by modules, in the order in which the modules first come. -/
def groupConstants (pairs : List (String × String)) : List (String × List String) :=
  pairs.foldl (fun groups p => addConstant groups p.1 p.2) []

end Composables
