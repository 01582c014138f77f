import Composables.Graphql.Grammar

/-
  The grammar of schemas. Of a definition only what it declares is kept: a type, or the root types.
-/

namespace Composables.Graphql

/-- The names of the types that operations select from. -/
structure RootTypes where
  query? : Option String
  mutation? : Option String
  subscription? : Option String
deriving DecidableEq, Repr, Inhabited

namespace RootTypes

def none : RootTypes := ⟨.none, .none, .none⟩

def get? (roots : RootTypes) : OperationKind → Option String
  | .query => roots.query?
  | .mutation => roots.mutation?
  | .subscription => roots.subscription?

def set (roots : RootTypes) (kind : OperationKind) (name : String) : RootTypes :=
  match kind with
  | .query => { roots with query? := some name }
  | .mutation => { roots with mutation? := some name }
  | .subscription => { roots with subscription? := some name }

/-- Adds a root type under the keyword of its kind; no keyword counts twice. -/
def insert? (roots : RootTypes) (entry : String × String) : Option RootTypes := do
  let kind ← OperationKind.ofKeyword? entry.1
  match roots.get? kind with
  | some _ => .none
  | .none => some (roots.set kind entry.2)

end RootTypes

inductive Declaration where
  | roots (roots : RootTypes)
  /-- A definition of a type, or an extension of one. -/
  | type (name : String)
  | directive (name : String)
deriving DecidableEq, Repr

namespace SchemaGrammar

open Composables.Graphql.Parser Composables.Graphql.Grammar

/-- The places a directive can be declared for. -/
def directiveLocations : List String :=
  ["QUERY", "MUTATION", "SUBSCRIPTION", "FIELD", "FRAGMENT_DEFINITION", "FRAGMENT_SPREAD", "INLINE_FRAGMENT",
   "VARIABLE_DEFINITION", "SCHEMA", "SCALAR", "OBJECT", "FIELD_DEFINITION", "ARGUMENT_DEFINITION", "INTERFACE",
   "UNION", "ENUM", "ENUM_VALUE", "INPUT_OBJECT", "INPUT_FIELD_DEFINITION"]

def isKeyword (s : String) (t : Token) : Bool := t == .name s

def isString : Token → Bool
  | .string _ => true
  | _ => false

/-- A description, which is left out. -/
def description : Parser Unit := do
  let _ ← optional isString skip

/-- Whether something with a name, perhaps with a description, can begin with a token. -/
def startsNamed (t : Token) : Bool := isName t || isString t

/-- The default value of an input. -/
def defaultValue (room : Nat) : Parser Unit := do
  let _ ← optional (isSymbol '=') do
    symbol '='
    let _ ← value true room

/-- An argument of a field, or a field of an input. -/
def inputValue (room : Nat) : Parser Unit := do
  description
  let _ ← name
  symbol ':'
  let _ ← type room
  defaultValue room
  let _ ← directives room

def argumentDefinitions : Nat → Parser Unit
  | 0 => fail
  | room + 1 => do
    let _ ← bracketed '(' ')' (many1 startsNamed (inputValue room))

def field (room : Nat) : Parser Unit := do
  description
  let _ ← name
  let _ ← optional (isSymbol '(') (argumentDefinitions room)
  symbol ':'
  let _ ← type room
  let _ ← directives room

def enumValue (room : Nat) : Parser Unit := do
  description
  let _ ← name
  let _ ← directives room

/-- Entries between braces, at least one, if a brace is next; answers whether there are any. -/
def block (entry : Nat → Parser Unit) (room : Nat) : Parser Bool := do
  let entries ← optional (isSymbol '\x7b') (match room with
    | 0 => fail
    | room + 1 => bracketed '\x7b' '\x7d' (many1 startsNamed (entry room)))
  return entries.isSome

/-- Names with a separator between them. -/
def separated (c : Char) (p : Parser Unit) : Parser Unit := do
  p
  let _ ← many (isSymbol c) do
    symbol c
    p

/-- The interfaces of a type; answers whether there are any. -/
def interfaces : Parser Bool := do
  let names ← optional (isKeyword "implements") do
    skip
    let _ ← accept (.symbol '&')
    separated '&' do
      let _ ← name
  return names.isSome

/-- The members of a union; answers whether an equals sign opens them. -/
def members : Parser Bool := do
  let names ← optional (isSymbol '=') do
    symbol '='
    let _ ← accept (.symbol '|')
    separated '|' do
      let _ ← name
  return names.isSome

/-- The forms of a type definition. -/
inductive Form where
  | scalar
  | object
  | interface
  | union
  | enum
  | input
deriving DecidableEq, Repr

def Form.ofKeyword? : String → Option Form
  | "scalar" => some .scalar
  | "type" => some .object
  | "interface" => some .interface
  | "union" => some .union
  | "enum" => some .enum
  | "input" => some .input
  | _ => none

/-- What follows the keyword of a type definition: its name, and whether anything counts as an addition to
the type. The interfaces of an interface do not. -/
def form (room : Nat) (f : Form) : Parser (String × Bool) := do
  let name ← name
  let implements ← match f with
    | .object => interfaces
    | .interface => do
      let _ ← interfaces
      pure false
    | _ => pure false
  let directives ← directives room
  let contents ← match f with
    | .scalar => pure false
    | .object => block field room
    | .interface => block field room
    | .union => members
    | .enum => block enumValue room
    | .input => block inputValue room
  return (name, implements || !directives.isEmpty || contents)

/-- A type extension, which has to add something. -/
def extension (room : Nat) : Parser Declaration := do
  skip
  let start ← get
  match ← peek? with
  | some (.name s) =>
    match Form.ofKeyword? s with
    | some f =>
      skip
      let (name, additions) ← form room f
      if additions then return .type name else failAt start
    | none => fail
  | _ => fail

/-- The block that names the root types, each once. -/
def roots (room : Nat) : Parser Declaration := do
  let start ← get
  skip
  let _ ← directives room
  let entries ← match room with
    | 0 => fail
    | _ + 1 => bracketed '\x7b' '\x7d' (many isName (labelled name))
  match entries.foldlM RootTypes.insert? RootTypes.none with
  | some roots => return .roots roots
  | none => failAt start

def directiveLocation : Parser Unit := do
  let start ← get
  if directiveLocations.contains (← name) then return else failAt start

/-- The places of a directive, which may be left out altogether. A bar in front of the first calls for one. -/
def locations : Parser Unit := do
  let _ ← optional (fun t => isSymbol '|' t || isName t) do
    let _ ← accept (.symbol '|')
    separated '|' directiveLocation

def directiveDefinition (room : Nat) : Parser Declaration := do
  skip
  symbol '@'
  let name ← name
  let _ ← optional (isSymbol '(') (argumentDefinitions room)
  let _ ← accept (.name "repeatable")
  keyword "on"
  locations
  return .directive name

/-- A definition that may have a description in front of it. -/
def described (room : Nat) : Parser Declaration := do
  description
  match ← peek? with
  | some (.name "directive") => directiveDefinition room
  | some (.name s) =>
    match Form.ofKeyword? s with
    | some f =>
      skip
      return .type (← form room f).1
    | none => fail
  | _ => fail

def declaration (room : Nat) : Parser Declaration := do
  match ← peek? with
  | some (.name "schema") => roots room
  | some (.name "extend") => extension room
  | _ => described room

end SchemaGrammar

/-- A schema is one definition or more. -/
def parseSchema (text : String) : Except Position (List Declaration) :=
  Parser.run (Parser.many1 (fun _ => true) (SchemaGrammar.declaration Grammar.depthLimit)) text

end Composables.Graphql
