import Composables.Graphql.Printer
import Composables.Graphql.Tree

/-
  Constants that hold documents, and how they are written.
-/

namespace Composables

open Graphql (Definition)

/-- What stands in front of a template. -/
inductive Tag where
  | plain
  | gql
  /-- The tag with the mark that its call has no effect. -/
  | pureGql
deriving DecidableEq, Repr

inductive DocumentValue where
  /-- A printed definition, followed by the texts of other constants. -/
  | template (tag : Tag) (definition : Definition) (references : List String)
  /-- A tree of definitions. -/
  | complete (definitions : List Definition)
  /-- A tree of one definition and the definitions of other constants. -/
  | spliced (definition : Definition) (references : List String)
deriving Repr

/-- The constants a value refers to. -/
def DocumentValue.references : DocumentValue → List String
  | .template _ _ references => references
  | .complete _ => []
  | .spliced _ references => references

structure Constant where
  name : String
  exported : Bool
  value : DocumentValue
deriving Repr

/-! ## Templates -/

/-- Text inside a template: what would end it or begin a substitution stands behind a backslash. -/
def escapeTemplate : List Char → List Char
  | '\\' :: cs => '\\' :: '\\' :: escapeTemplate cs
  | '`' :: cs => '\\' :: '`' :: escapeTemplate cs
  | '$' :: '\x7b' :: cs => '\\' :: '$' :: '\x7b' :: escapeTemplate cs
  | c :: cs => c :: escapeTemplate cs
  | [] => []

/-- A template of a text and, below it, one substitution a line. -/
def renderTemplate (text : String) (references : List String) : String :=
  "`\n    " ++ String.ofList (escapeTemplate text.toList) ++ "\n    " ++
    "\n".intercalate (references.map fun r => "$\x7b" ++ r ++ "\x7d") ++ "`"

def Tag.render : Tag → String
  | .plain => ""
  | .gql => "gql"
  | .pureGql => "/*#__PURE__*/ gql"

/-! ## Trees -/

/-- A tree of which some definitions come from other constants. -/
def renderSpliced (definition : Definition) (references : List String) : String :=
  let parts := definition.toJson.compact :: references.map fun r => "..." ++ r ++ ".definitions"
  "\x7b\"kind\":\"Document\",\"definitions\":[" ++ ",".intercalate parts ++ "]\x7d"

def DocumentValue.render : DocumentValue → String
  | .template tag definition references => tag.render ++ renderTemplate definition.print references
  | .complete definitions =>
    (Graphql.documentNode (definitions.map Definition.toJson)).compact ++ " as unknown as DocumentNode"
  | .spliced definition references => renderSpliced definition references ++ " as unknown as DocumentNode"

def Constant.render (c : Constant) : String :=
  (if c.exported then "export " else "") ++ "const " ++ c.name ++ " = " ++ c.value.render ++ ";"

/-! ## Texts of declarations -/

theorem renderSpliced_eq (definition : Definition) (references : List String) :
    renderSpliced definition references = Graphql.documentText
      (definition.toJson.compact :: references.map fun r => "..." ++ r ++ ".definitions") :=
  rfl

theorem DocumentValue.render_complete {definitions : List Definition} (h : definitions ≠ []) :
    (complete definitions).render =
      Graphql.documentText (definitions.map fun x => x.toJson.compact) ++
        " as unknown as DocumentNode" := by
  rw [render, Graphql.compact_documentNode (by simpa using h), List.map_map]
  rfl

/-- A declaration is a name with a value, and the word `export` in front of it or not. -/
theorem Constant.render_eq (c : Constant) :
    c.render = (if c.exported then "export " else "") ++ "const " ++ c.name ++ " = " ++
      c.value.render ++ ";" :=
  rfl

end Composables
