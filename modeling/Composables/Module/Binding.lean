import Composables.Naming.Basic
import Composables.Operation

/-
  What the functions for one operation are written from.
-/

namespace Composables

structure Binding where
  kind : Graphql.OperationKind
  /-- The expression for the operation's document. -/
  document : String
  function : String
  lazyFunction : String
  resultType : String
  variablesType : String
  resultAlias : String
  hasVariables : Bool
  hasRequiredVariables : Bool
deriving DecidableEq, Repr

def Binding.ofOperation (n : Naming) (o : Operation) (document : String) : Binding where
  kind := o.kind
  document := document
  function := n.function o.name o.kind
  lazyFunction := n.lazyFunction o.name o.kind
  resultType := n.resultType o.name o.kind
  variablesType := n.variablesType o.name o.kind
  resultAlias := n.resultAlias o.name o.kind
  hasVariables := o.hasVariables
  hasRequiredVariables := o.hasRequiredVariables

/-- The types of an operation's result and of its variables, as type arguments. -/
def Binding.types (b : Binding) : String := b.resultType ++ ", " ++ b.variablesType

end Composables
