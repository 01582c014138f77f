import Composables.Graphql.Parser

/-
  The grammar of types, values and executable documents. `room` is the number of brackets that may still be
  open at once: an opening bracket without room is refused where it stands.
-/

namespace Composables.Graphql.Grammar

open Composables.Graphql.Parser

/-- How many brackets may be open at once. -/
def depthLimit : Nat := 50

/-- Runs a parser between brackets. -/
def bracketed {α : Type} (opening closing : Char) (p : Parser α) : Parser α := do
  symbol opening
  let a ← p
  symbol closing
  return a

/-! ## Types and values -/

/-- A type, in which `list` reads one that opens with a bracket. -/
def typeWith (list : Parser TypeRef) : Parser TypeRef := do
  let inner ← match ← peek? with
    | some (.name s) => do
      skip
      pure (.named s)
    | some (.symbol '[') => list
    | _ => fail
  if ← accept (.symbol '!') then return .nonNull inner else return inner

def type : Nat → Parser TypeRef
  | 0 => typeWith fail
  | room + 1 => typeWith do
    let inner ← bracketed '[' ']' (type room)
    return .list inner

/-- The value a name stands for by itself. -/
def ofName : String → Value
  | "true" => .boolean true
  | "false" => .boolean false
  | "null" => .null
  | s => .enum s

/-- Whether a value can begin with a token. -/
def startsValue : Token → Bool
  | .symbol c => c == '$' || c == '[' || c == '\x7b'
  | .spread => false
  | _ => true

/-- A value, in which `list` and `object` read those that open with a bracket. A constant value holds no
variables. -/
def valueWith (constant : Bool) (list object : Parser Value) : Parser Value := do
  match ← peek? with
  | some (.name s) =>
    skip
    return ofName s
  | some (.int n) =>
    skip
    return .int n
  | some (.float x) =>
    skip
    return .float x
  | some (.string s) =>
    skip
    return .string s
  | some (.symbol '$') =>
    if constant then fail
    else
      skip
      return .variable (← name)
  | some (.symbol '[') => list
  | some (.symbol '\x7b') => object
  | _ => fail

/-- A name, a colon, and what a parser reads after them. -/
def labelled {α : Type} (p : Parser α) : Parser (String × α) := do
  let k ← name
  symbol ':'
  return (k, ← p)

def value (constant : Bool) : Nat → Parser Value
  | 0 => valueWith constant fail fail
  | room + 1 =>
    valueWith constant
      (do
        let items ← bracketed '[' ']' (many startsValue (value constant room))
        return .list items)
      (do
        let fields ← bracketed '\x7b' '\x7d' (many isName (labelled (value constant room)))
        return .object (fields.foldl (fun fs f => Value.insertField f.1 f.2 fs) []))

/-- Arguments between parentheses, at least one. -/
def arguments : Nat → Parser Arguments
  | 0 => fail
  | room + 1 => bracketed '(' ')' (many1 isName (labelled (value false room)))

def arguments? (room : Nat) : Parser Arguments := do
  return (← optional (isSymbol '(') (arguments room)).getD []

def directive (room : Nat) : Parser Directive := do
  symbol '@'
  let name ← name
  return ⟨name, ← arguments? room⟩

def directives (room : Nat) : Parser (List Directive) := many (isSymbol '@') (directive room)

/-! ## Selections -/

def startsSelection : Token → Bool
  | .name _ => true
  | .spread => true
  | _ => false

/-- A selection between braces, or a spread. `set` reads the selections inside. -/
def selection (room : Nat) (set : Parser (List Selection)) : Parser Selection := do
  match ← peek? with
  | some (.name first) =>
    let position ← position
    skip
    let second ← optional (isSymbol ':') do
      symbol ':'
      name
    let arguments ← arguments? room
    let directives ← directives room
    let selections := (← optional (isSymbol '\x7b') set).getD []
    match second with
    | some name => return .field position (some first) name arguments directives selections
    | none => return .field position none first arguments directives selections
  | some .spread =>
    skip
    let position ← position
    match ← peek? with
    | some (.name "on") =>
      skip
      let condition ← name
      let directives ← directives room
      return .inline position (some condition) directives (← set)
    | some (.name name) =>
      skip
      return .spread position name (← directives room)
    | some (.symbol _) =>
      let directives ← directives room
      return .inline position none directives (← set)
    | _ => fail
  | _ => fail

/-- Selections between braces, at least one. -/
def selectionSet : Nat → Parser (List Selection)
  | 0 => fail
  | room + 1 => bracketed '\x7b' '\x7d' (many1 startsSelection (selection room (selectionSet room)))

/-! ## Definitions -/

def variableDefinition (room : Nat) : Parser VariableDefinition := do
  symbol '$'
  let name ← name
  symbol ':'
  let type ← type room
  let default? ← optional (isSymbol '=') do
    symbol '='
    value true room
  return { name, type, default? }

def variableDefinitions : Nat → Parser (List VariableDefinition)
  | 0 => fail
  | room + 1 => bracketed '(' ')' (many1 (isSymbol '$') (variableDefinition room))

/-- What follows the keyword of an operation. -/
def operation (room : Nat) (position : Position) (kind : OperationKind) : Parser OperationDefinition := do
  let name? ← optional isName name
  let definitions := (← optional (isSymbol '(') (variableDefinitions room)).getD []
  let directives ← directives room
  return { position, kind, name?, variableDefinitions := definitions, directives, selections := ← selectionSet room }

/-- What follows the keyword of a fragment. -/
def fragment (room : Nat) (position : Position) : Parser FragmentDefinition := do
  let name ← name
  keyword "on"
  let condition ← Parser.name
  let directives ← directives room
  return { position, name, condition, directives, selections := ← selectionSet room }

def definition (room : Nat) : Parser Definition := do
  let position ← position
  match ← peek? with
  | some (.symbol '\x7b') => return .shorthand position (← selectionSet room)
  | some (.name "fragment") =>
    skip
    return .fragment (← fragment room position)
  | some (.name s) =>
    match OperationKind.ofKeyword? s with
    | some kind =>
      skip
      return .operation (← operation room position kind)
    | none => fail
  | _ => fail

end Grammar

/-- An executable document is one definition or more. -/
def parseDocument (text : String) : Except Position (List Definition) :=
  Parser.run (Parser.many1 (fun _ => true) (Grammar.definition Grammar.depthLimit)) text

end Composables.Graphql
