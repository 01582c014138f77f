/-
  What the functions for one operation consist of: comments, functions and type aliases.
-/

namespace Composables

inductive Part where
  | comment (lines : List String)
  /-- A function that returns one expression. -/
  | function (name signature result : String)
  /-- A function with a semicolon behind its body. -/
  | statement (name signature result : String)
  | typeAlias (name type : String)
deriving DecidableEq, Repr

namespace Part

def renderFunction (name signature result : String) : String :=
  "export function " ++ name ++ signature ++ " \x7b\n  return " ++ result ++ ";\n\x7d"

def render : Part → String
  | .comment lines => "\n".intercalate (["/**"] ++ lines.map (fun l => if l.isEmpty then " *" else " * " ++ l) ++ [" */"])
  | .function name signature result => renderFunction name signature result
  | .statement name signature result => renderFunction name signature result ++ ";"
  | .typeAlias name type => "export type " ++ name ++ " = " ++ type ++ ";"

/-- The name a part gives to a function. -/
def functionName? : Part → Option String
  | .function name _ _ => some name
  | .statement name _ _ => some name
  | _ => none

/-- The name a part gives to a type. -/
def typeName? : Part → Option String
  | .typeAlias name _ => some name
  | _ => none

end Part

end Composables
