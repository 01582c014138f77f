import Composables.Module.Binding
import Composables.Module.Import
import Composables.Module.Part

/-
  Functions for the client library Urql: one for an operation, without a comment.
-/

namespace Composables.Urql

def imports (options : Options) : List Import := [.library "Urql" options.urqlModule, .omit]

/-- The value of options that are not passed, unless variables are required. -/
def defaultOptions (b : Binding) : String := if b.hasRequiredVariables then "" else " = \x7b\x7d"

/-- The type of options, which leave out the query. -/
def optionsType (b : Binding) (arguments : String) : String :=
  "Omit<Urql." ++ arguments ++ "<never, " ++ b.variablesType ++ ">, 'query'>"

/-- The query with the options around it. -/
def arguments (b : Binding) : String := "\x7b query: " ++ b.document ++ ", ...options \x7d"

def function (b : Binding) : Part :=
  match b.kind with
  | .query =>
    .statement b.function ("(options: " ++ optionsType b "UseQueryArgs" ++ defaultOptions b ++ ")")
      ("Urql.useQuery<" ++ b.types ++ ">(" ++ arguments b ++ ")")
  | .mutation => .statement b.function "()" ("Urql.useMutation<" ++ b.types ++ ">(" ++ b.document ++ ")")
  | .subscription =>
    .statement b.function
      ("<R = " ++ b.resultType ++ ">(options: " ++ optionsType b "UseSubscriptionArgs" ++ defaultOptions b ++
        ", handler?: Urql.SubscriptionHandlerArg<" ++ b.resultType ++ ", R>)")
      ("Urql.useSubscription<" ++ b.resultType ++ ", R, " ++ b.variablesType ++ ">(" ++ arguments b ++ ", handler)")

end Composables.Urql
