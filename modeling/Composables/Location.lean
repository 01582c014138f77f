import Composables.Graphql.Syntax
import Composables.Path.Basic

/-
  Places in files, as messages name them.
-/

namespace Composables

structure Location where
  file : Path
  position : Graphql.Position
deriving DecidableEq, Repr, Inhabited

namespace Location

def render (l : Location) : String :=
  l.file.text ++ ":" ++ toString l.position.line ++ ":" ++ toString l.position.column

instance : ToString Location := ⟨render⟩

end Location

end Composables
