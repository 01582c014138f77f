import Composables.Decimal.Notation
import Composables.Graphql.BlockString
import Composables.Graphql.StringLiteral
import Composables.Graphql.Syntax

/-
  The canonical layout of a definition: one selection a line, two columns deeper than what encloses it.
  Positions are not printed.
-/

namespace Composables.Graphql

/-- Floats are written in full, and without a point if they are whole. -/
def printedFloat : Decimal.Notation where
  plainFrom := -324
  plainBelow := 309
  pointZero := false
  plusSign := false
  tie := .awayFromZero

def spaces (n : Nat) : String := String.ofList (List.replicate n ' ')

/-- A string on a line with the given indent: a block if it holds a line feed, quoted otherwise. -/
def printString (indent : Nat) (s : String) : String :=
  let cs := s.toList
  if BlockString.fits cs then String.ofList (BlockString.encode indent cs)
  else "\"" ++ String.ofList (StringLiteral.encode cs) ++ "\""

def TypeRef.print : TypeRef → String
  | .named name => name
  | .list inner => "[" ++ inner.print ++ "]"
  | .nonNull inner => inner.print ++ "!"

mutual

def Value.print (indent : Nat) : Value → String
  | .variable name => "$" ++ name
  | .int n => toString n
  | .float x => printedFloat.render x
  | .string s => printString indent s
  | .boolean b => if b then "true" else "false"
  | .null => "null"
  | .enum name => name
  | .list items => "[" ++ ", ".intercalate (printItems indent items) ++ "]"
  | .object fields => "\x7b" ++ ", ".intercalate (printFields indent fields) ++ "\x7d"

def printItems (indent : Nat) : List Value → List String
  | [] => []
  | v :: vs => v.print indent :: printItems indent vs

/-- Names with their values, each as `name: value`. -/
def printFields (indent : Nat) : List (String × Value) → List String
  | [] => []
  | (k, v) :: fields => (k ++ ": " ++ v.print indent) :: printFields indent fields

end

def printArguments (indent : Nat) (arguments : Arguments) : String :=
  if arguments.isEmpty then "" else "(" ++ ", ".intercalate (printFields indent arguments) ++ ")"

def Directive.print (indent : Nat) (d : Directive) : String :=
  "@" ++ d.name ++ printArguments indent d.arguments

/-- Directives, each after a space. -/
def printDirectives (indent : Nat) (ds : List Directive) : String :=
  String.join (ds.map fun d => " " ++ d.print indent)

def printCondition : Option String → String
  | some name => " on " ++ name
  | none => ""

mutual

/-- A selection on lines of its own. -/
def Selection.print (indent : Nat) : Selection → String
  | .field _ alias? name arguments directives selections =>
    let label := match alias? with
      | some a => a ++ ": " ++ name
      | none => name
    let block := if selections.isEmpty then "" else " " ++ printSet indent selections
    spaces indent ++ label ++ printArguments indent arguments ++ printDirectives indent directives ++ block ++ "\n"
  | .spread _ name directives => spaces indent ++ "..." ++ name ++ printDirectives indent directives ++ "\n"
  | .inline _ condition? directives selections =>
    spaces indent ++ "..." ++ printCondition condition? ++ printDirectives indent directives ++ " " ++
      printSet indent selections ++ "\n"

/-- Selections between braces, of which the closing one stands at the given indent. -/
def printSet (indent : Nat) (selections : List Selection) : String :=
  "\x7b\n" ++ printSelections (indent + 2) selections ++ spaces indent ++ "\x7d"

def printSelections (indent : Nat) : List Selection → String
  | [] => ""
  | s :: ss => s.print indent ++ printSelections indent ss

end

def VariableDefinition.print (v : VariableDefinition) : String :=
  let default := match v.default? with
    | some d => " = " ++ d.print 0
    | none => ""
  "$" ++ v.name ++ ": " ++ v.type.print ++ default

/-- The variables of an operation in parentheses. Those of a subscription have nothing between them, and a
subscription without a name has none. -/
def OperationDefinition.printVariables (d : OperationDefinition) : String :=
  let between := if d.kind = .subscription then "" else ", "
  if d.variableDefinitions.isEmpty || (d.kind == .subscription && d.name?.isNone) then ""
  else "(" ++ between.intercalate (d.variableDefinitions.map VariableDefinition.print) ++ ")"

def OperationDefinition.print (d : OperationDefinition) : String :=
  let name := match d.name? with
    | some name => " " ++ name
    | none => ""
  d.kind.keyword ++ name ++ d.printVariables ++ printDirectives 0 d.directives ++ " " ++ printSet 0 d.selections

def FragmentDefinition.print (d : FragmentDefinition) : String :=
  "fragment " ++ d.name ++ printCondition (some d.condition) ++ printDirectives 0 d.directives ++ " " ++
    printSet 0 d.selections

def Definition.print : Definition → String
  | .shorthand _ selections => printSet 0 selections
  | .operation d => d.print
  | .fragment d => d.print

end Composables.Graphql
