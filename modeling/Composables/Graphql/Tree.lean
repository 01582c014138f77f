import Composables.Graphql.Syntax
import Composables.Json.Printer

/-
  Definitions as JSON trees of nodes, each with its kind in front. Positions are left out, and so are
  lists of arguments, directives, variables and definitions that are empty.
-/

namespace Composables.Graphql

/-- Floats have a point, and an exponent below `1e-4` and from `1e16` on. -/
def treeFloat : Decimal.Notation where
  plainFrom := -4
  plainBelow := 16
  pointZero := true
  plusSign := false
  tie := .awayFromZero

def kindNode (kind : String) (fields : List (String × Json)) : Json :=
  .object (("kind", .string kind) :: fields)

/-- A field that is left out if its list is empty. -/
def listField (name : String) (items : List Json) : List (String × Json) :=
  if items.isEmpty then [] else [(name, .array items)]

def nameNode (name : String) : Json := kindNode "Name" [("value", .string name)]

def namedTypeNode (name : String) : Json := kindNode "NamedType" [("name", nameNode name)]

def TypeRef.toJson : TypeRef → Json
  | .named name => namedTypeNode name
  | .list inner => kindNode "ListType" [("type", inner.toJson)]
  | .nonNull inner => kindNode "NonNullType" [("type", inner.toJson)]

mutual

def Value.toJson : Value → Json
  | .variable name => kindNode "Variable" [("name", nameNode name)]
  | .int n => kindNode "IntValue" [("value", .string (toString n))]
  | .float x => kindNode "FloatValue" [("value", .string (treeFloat.render x))]
  | .string s => kindNode "StringValue" [("value", .string s), ("block", .bool false)]
  | .boolean b => kindNode "BooleanValue" [("value", .bool b)]
  | .null => kindNode "NullValue" []
  | .enum name => kindNode "EnumValue" [("value", .string name)]
  | .list items => kindNode "ListValue" [("values", .array (valueNodes items))]
  | .object fields => kindNode "ObjectValue" [("fields", .array (labelledNodes "ObjectField" fields))]

def valueNodes : List Value → List Json
  | [] => []
  | v :: vs => v.toJson :: valueNodes vs

/-- A node of the given kind for each name with a value. -/
def labelledNodes (kind : String) : List (String × Value) → List Json
  | [] => []
  | (k, v) :: fields => kindNode kind [("name", nameNode k), ("value", v.toJson)] :: labelledNodes kind fields

end

def argumentsField (arguments : Arguments) : List (String × Json) :=
  listField "arguments" (labelledNodes "Argument" arguments)

def Directive.toJson (d : Directive) : Json :=
  kindNode "Directive" (("name", nameNode d.name) :: argumentsField d.arguments)

def directivesField (ds : List Directive) : List (String × Json) :=
  listField "directives" (ds.map Directive.toJson)

/-- A field for what may be missing. -/
def optionField (name : String) (node : Option Json) : List (String × Json) :=
  match node with
  | some node => [(name, node)]
  | none => []

mutual

def Selection.toJson : Selection → Json
  | .field _ alias? name arguments directives selections =>
    kindNode "Field" (optionField "alias" (alias?.map nameNode) ++ [("name", nameNode name)] ++
      argumentsField arguments ++ directivesField directives ++
      if selections.isEmpty then [] else [("selectionSet", setNode selections)])
  | .spread _ name directives =>
    kindNode "FragmentSpread" (("name", nameNode name) :: directivesField directives)
  | .inline _ condition? directives selections =>
    kindNode "InlineFragment" (optionField "typeCondition" (condition?.map namedTypeNode) ++
      directivesField directives ++ [("selectionSet", setNode selections)])

def setNode (selections : List Selection) : Json :=
  kindNode "SelectionSet" (listField "selections" (selectionNodes selections))

def selectionNodes : List Selection → List Json
  | [] => []
  | s :: ss => s.toJson :: selectionNodes ss

end

def VariableDefinition.toJson (v : VariableDefinition) : Json :=
  kindNode "VariableDefinition" ([("variable", Value.toJson (.variable v.name)), ("type", v.type.toJson)] ++
    optionField "defaultValue" (v.default?.map Value.toJson))

def operationNode (kind : OperationKind) (name? : Option String) (definitions : List VariableDefinition)
    (directives : List Directive) (selections : List Selection) : Json :=
  kindNode "OperationDefinition" ([("operation", .string kind.keyword)] ++ optionField "name" (name?.map nameNode) ++
    listField "variableDefinitions" (definitions.map VariableDefinition.toJson) ++ directivesField directives ++
    [("selectionSet", setNode selections)])

def OperationDefinition.toJson (d : OperationDefinition) : Json :=
  operationNode d.kind d.name? d.variableDefinitions d.directives d.selections

def FragmentDefinition.toJson (d : FragmentDefinition) : Json :=
  kindNode "FragmentDefinition" ([("name", nameNode d.name), ("typeCondition", namedTypeNode d.condition)] ++
    directivesField d.directives ++ [("selectionSet", setNode d.selections)])

def Definition.toJson : Definition → Json
  | .shorthand _ selections => operationNode .query none [] [] selections
  | .operation d => d.toJson
  | .fragment d => d.toJson

/-- A document of definitions. -/
def documentNode (definitions : List Json) : Json := kindNode "Document" (listField "definitions" definitions)

/-- The text of a document whose definitions have the given texts. -/
def documentText (definitions : List String) : String :=
  "\x7b\"kind\":\"Document\",\"definitions\":[" ++ ",".intercalate definitions ++ "]\x7d"

theorem compact_documentNode {definitions : List Json} (h : definitions ≠ []) :
    (documentNode definitions).compact = documentText (definitions.map Json.compact) := by
  have hfields : listField "definitions" definitions = [("definitions", .array definitions)] :=
    if_neg (by simpa using h)
  have hfront : "\x7b" ++ Json.quote "kind" ++ ":" ++ Json.quote "Document" ++ "," ++
      Json.quote "definitions" ++ ":" ++ "[" = "\x7b\"kind\":\"Document\",\"definitions\":[" := by
    decide +kernel
  have hback : "]" ++ "\x7d" = "]\x7d" := by decide +kernel
  have hassoc : ∀ {kind document name items front back : String},
      "\x7b" ++ kind ++ ":" ++ document ++ "," ++ name ++ ":" ++ "[" = front → "]" ++ "\x7d" = back →
      "\x7b" ++ (kind ++ ":" ++ document ++ "," ++ (name ++ ":" ++ ("[" ++ items ++ "]"))) ++ "\x7d" =
        front ++ items ++ back := by
    rintro kind document name items _ _ rfl rfl
    simp only [String.append_assoc]
  rw [documentNode, kindNode, hfields, Json.compact, Json.compactMembers_eq, List.map_cons,
    List.map_singleton, Json.compact, Json.compact, Json.compactItems_eq,
    String.intercalate_cons_cons, String.intercalate_singleton]
  exact hassoc hfront hback

end Composables.Graphql
