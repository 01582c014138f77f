import Composables.Module.Binding
import Composables.Module.Import
import Composables.Module.Part

/-
  Functions for the client library Apollo: one for an operation, a lazy one more for a query, and an alias for
  the type of their result.
-/

namespace Composables.Apollo

open Graphql (OperationKind)

def imports (options : Options) : List Import :=
  [.library "VueApolloComposable" options.apolloModule, .library "VueCompositionApi" options.compositionModule,
    .reactiveFunction]

/-! ## Comments -/

def queryComment (keyword function : String) : List String :=
  ["__" ++ function ++ "__",
   "",
   "To run a " ++ keyword ++ " within a Vue component, call `" ++ function ++
     "` and pass it any options that fit your needs.",
   "When your component renders, `" ++ function ++
     "` returns an object from Apollo Client that contains result, loading and error properties",
   "you can use to render your UI.",
   "",
   "@param variables that will be passed into the " ++ keyword,
   "@param options that will be passed into the " ++ keyword ++
     ", supported options are listed on: https://v4.apollo.vuejs.org/guide-composable/" ++ keyword ++ ".html#options;",
   "",
   "@example",
   "const \x7b result, loading, error \x7d = " ++ function ++ "(",
   "  \x7b",
   "  \x7d",
   ");"]

def mutationComment (function : String) : List String :=
  ["__" ++ function ++ "__",
   "",
   "To run a mutation, you first call `" ++ function ++
     "` within a Vue component and pass it any options that fit your needs.",
   "When your component renders, `" ++ function ++ "` returns an object that includes:",
   "- A mutate function that you can call at any time to execute the mutation",
   "- Several other properties: https://v4.apollo.vuejs.org/api/use-mutation.html#return",
   "",
   "@param options that will be passed into the mutation, supported options are listed on: " ++
     "https://v4.apollo.vuejs.org/guide-composable/mutation.html#options;",
   "",
   "@example",
   "const \x7b mutate, loading, error, onDone \x7d = " ++ function ++ "(\x7b",
   "  variables: \x7b",
   "  \x7d,",
   "\x7d);"]

def comment (b : Binding) : Part :=
  match b.kind with
  | .mutation => .comment (mutationComment b.function)
  | kind => .comment (queryComment kind.keyword b.function)

/-! ## Functions -/

/-- A value, a reference to one, or a function that returns one. -/
def reactive (type : String) : String :=
  type ++ " | VueCompositionApi.Ref<" ++ type ++ "> | ReactiveFunction<" ++ type ++ ">"

/-- The parameter for variables and the argument passed on. Where all variables may be missing, so may the
parameter; without variables there is none. -/
def variablesParameter (b : Binding) : String × String :=
  if !b.hasVariables then ("", "\x7b\x7d")
  else if b.hasRequiredVariables then ("variables: " ++ reactive b.variablesType ++ ", ", "variables")
  else ("variables: " ++ reactive b.variablesType ++ " = \x7b\x7d, ", "variables")

/-- A function of variables and options. -/
def reactiveFunction (b : Binding) (name composable optionsType : String) : Part :=
  let options := reactive ("VueApolloComposable." ++ optionsType ++ "<" ++ b.types ++ ">")
  let (parameter, argument) := variablesParameter b
  .function name ("(" ++ parameter ++ "options: " ++ options ++ " = \x7b\x7d)")
    ("VueApolloComposable." ++ composable ++ "<" ++ b.types ++ ">(" ++ b.document ++ ", " ++ argument ++ ", options)")

/-- A function of options, which may be missing unless variables are required. -/
def mutationFunction (b : Binding) : Part :=
  let options := "VueApolloComposable.UseMutationOptions<" ++ b.types ++ ">"
  let default := if b.hasRequiredVariables then "" else " = \x7b\x7d"
  .function b.function ("(options: " ++ options ++ " | ReactiveFunction<" ++ options ++ ">" ++ default ++ ")")
    ("VueApolloComposable.useMutation<" ++ b.types ++ ">(" ++ b.document ++ ", options)")

def functions (b : Binding) : List Part :=
  match b.kind with
  | .query =>
    [reactiveFunction b b.function "useQuery" "UseQueryOptions",
      reactiveFunction b b.lazyFunction "useLazyQuery" "UseQueryOptions"]
  | .mutation => [mutationFunction b]
  | .subscription => [reactiveFunction b b.function "useSubscription" "UseSubscriptionOptions"]

def resultAlias (b : Binding) : Part :=
  .typeAlias b.resultAlias ("VueApolloComposable.Use" ++ b.kind.word ++ "Return<" ++ b.types ++ ">")

def parts (options : Options) (b : Binding) : List Part :=
  (if options.docBlocks then [comment b] else []) ++ functions b ++ [resultAlias b]

end Composables.Apollo
