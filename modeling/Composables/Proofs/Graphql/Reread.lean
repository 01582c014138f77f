import Composables.Graphql.Grammar
import Composables.Graphql.Tree

/-
  Definitions with their literals read once more. A reading says which token a literal at an indent
  is read as, if any; `tokens` are those of a printed definition, `reread` is what they say.
-/

namespace Composables.Graphql

/-! ## Literals -/

mutual

/-- The numbers and strings in a value, which are not read as they are written. -/
def Value.literals : Value → List Value
  | .int n => [.int n]
  | .float x => [.float x]
  | .string s => [.string s]
  | .list items => itemLiterals items
  | .object fields => fieldLiterals fields
  | _ => []

def itemLiterals : List Value → List Value
  | [] => []
  | v :: vs => v.literals ++ itemLiterals vs

def fieldLiterals : List (String × Value) → List Value
  | [] => []
  | (_, v) :: fields => v.literals ++ fieldLiterals fields

end

def Directive.literals (d : Directive) : List Value := fieldLiterals d.arguments

mutual

def Selection.literals : Selection → List Value
  | .field _ _ _ arguments directives selections =>
    fieldLiterals arguments ++ directives.flatMap Directive.literals ++ selectionLiterals selections
  | .spread _ _ directives => directives.flatMap Directive.literals
  | .inline _ _ directives selections =>
    directives.flatMap Directive.literals ++ selectionLiterals selections

def selectionLiterals : List Selection → List Value
  | [] => []
  | s :: ss => s.literals ++ selectionLiterals ss

end

def VariableDefinition.literals (v : VariableDefinition) : List Value :=
  v.default?.toList.flatMap Value.literals

def OperationDefinition.literals (d : OperationDefinition) : List Value :=
  d.variableDefinitions.flatMap VariableDefinition.literals ++
    d.directives.flatMap Directive.literals ++ selectionLiterals d.selections

def FragmentDefinition.literals (d : FragmentDefinition) : List Value :=
  d.directives.flatMap Directive.literals ++ selectionLiterals d.selections

/-- The literals in a definition, wherever they stand. -/
def Definition.literals : Definition → List Value
  | .shorthand _ selections => selectionLiterals selections
  | .operation d => d.literals
  | .fragment d => d.literals

/-- The variables of an operation that are printed. -/
def OperationDefinition.shown (d : OperationDefinition) : List VariableDefinition :=
  if d.kind = .subscription ∧ d.name? = none then [] else d.variableDefinitions

/-- What literals at an indent are read as. -/
abbrev Reading := Nat → Value → Option Token

/-! ## Tokens -/

def TypeRef.tokens : TypeRef → List (Option Token)
  | .named name => [some (.name name)]
  | .list inner => some (.symbol '[') :: (inner.tokens ++ [some (.symbol ']')])
  | .nonNull inner => inner.tokens ++ [some (.symbol '!')]

section Tokens

variable (read : Reading)

mutual

def Value.tokens (indent : Nat) : Value → List (Option Token)
  | .variable name => [some (.symbol '$'), some (.name name)]
  | .boolean b => [some (.name (if b then "true" else "false"))]
  | .null => [some (.name "null")]
  | .enum name => [some (.name name)]
  | .list items => some (.symbol '[') :: (itemTokens indent items ++ [some (.symbol ']')])
  | .object fields =>
      some (.symbol '\x7b') :: (fieldTokens indent fields ++ [some (.symbol '\x7d')])
  | literal => [read indent literal]

def itemTokens (indent : Nat) : List Value → List (Option Token)
  | [] => []
  | v :: vs => v.tokens indent ++ itemTokens indent vs

def fieldTokens (indent : Nat) : List (String × Value) → List (Option Token)
  | [] => []
  | (k, v) :: fields =>
    some (.name k) :: some (.symbol ':') :: (v.tokens indent ++ fieldTokens indent fields)

end

def argumentTokens (indent : Nat) (arguments : Arguments) : List (Option Token) :=
  if arguments = [] then []
  else some (.symbol '(') :: (fieldTokens read indent arguments ++ [some (.symbol ')')])

def Directive.tokens (indent : Nat) (d : Directive) : List (Option Token) :=
  some (.symbol '@') :: some (.name d.name) :: argumentTokens read indent d.arguments

def directiveTokens (indent : Nat) (ds : List Directive) : List (Option Token) :=
  ds.flatMap (Directive.tokens read indent)

def labelTokens (alias? : Option String) (name : String) : List (Option Token) :=
  match alias? with
  | some a => [some (.name a), some (.symbol ':'), some (.name name)]
  | none => [some (.name name)]

def conditionTokens (condition? : Option String) : List (Option Token) :=
  match condition? with
  | some name => [some (.name "on"), some (.name name)]
  | none => []

mutual

def Selection.tokens (indent : Nat) : Selection → List (Option Token)
  | .field _ alias? name arguments directives selections =>
    labelTokens alias? name ++ argumentTokens read indent arguments ++
      directiveTokens read indent directives ++
      if selections.isEmpty then []
      else some (.symbol '\x7b') ::
        (selectionTokens (indent + 2) selections ++ [some (.symbol '\x7d')])
  | .spread _ name directives =>
    some .spread :: some (.name name) :: directiveTokens read indent directives
  | .inline _ condition? directives selections =>
    some .spread :: (conditionTokens condition? ++ directiveTokens read indent directives ++
      some (.symbol '\x7b') :: (selectionTokens (indent + 2) selections ++ [some (.symbol '\x7d')]))

def selectionTokens (indent : Nat) : List Selection → List (Option Token)
  | [] => []
  | s :: ss => s.tokens indent ++ selectionTokens indent ss

end

def setTokens (indent : Nat) (selections : List Selection) : List (Option Token) :=
  some (.symbol '\x7b') :: (selectionTokens read (indent + 2) selections ++ [some (.symbol '\x7d')])

def VariableDefinition.tokens (v : VariableDefinition) : List (Option Token) :=
  some (.symbol '$') :: some (.name v.name) :: some (.symbol ':') ::
    (v.type.tokens ++ match v.default? with
      | some d => some (.symbol '=') :: d.tokens read 0
      | none => [])

def variableTokens (vs : List VariableDefinition) : List (Option Token) :=
  if vs = [] then []
  else some (.symbol '(') :: (vs.flatMap (VariableDefinition.tokens read) ++ [some (.symbol ')')])

def OperationDefinition.tokens (d : OperationDefinition) : List (Option Token) :=
  some (.name d.kind.keyword) ::
    (d.name?.toList.map (some ∘ .name) ++ variableTokens read d.shown ++
    directiveTokens read 0 d.directives ++ setTokens read 0 d.selections)

def FragmentDefinition.tokens (d : FragmentDefinition) : List (Option Token) :=
  some (.name "fragment") :: some (.name d.name) :: some (.name "on") :: some (.name d.condition) ::
    (directiveTokens read 0 d.directives ++ setTokens read 0 d.selections)

def Definition.tokens : Definition → List (Option Token)
  | .shorthand _ selections => setTokens read 0 selections
  | .operation d => d.tokens read
  | .fragment d => d.tokens read

end Tokens

/-- Tokens of which all are read. -/
def AllRead (ts : List (Option Token)) : Prop := none ∉ ts

theorem allRead_append {ts us : List (Option Token)} :
    AllRead (ts ++ us) ↔ AllRead ts ∧ AllRead us := by
  rw [AllRead, List.mem_append, not_or, AllRead, AllRead]

theorem allRead_cons {o : Option Token} {ts : List (Option Token)} :
    AllRead (o :: ts) ↔ o ≠ none ∧ AllRead ts := by
  rw [AllRead, List.mem_cons, not_or, AllRead]
  exact and_congr_left fun _ => ne_comm

theorem allRead_nil : AllRead [] := List.not_mem_nil

theorem allRead_type (type : TypeRef) : AllRead type.tokens := by
  induction type with
  | named name => simp [AllRead, TypeRef.tokens]
  | list inner ih => simpa [TypeRef.tokens, allRead_cons, allRead_append, allRead_nil] using ih
  | nonNull inner ih => simpa [TypeRef.tokens, allRead_cons, allRead_append, allRead_nil] using ih

theorem allRead_label (alias? : Option String) (name : String) :
    AllRead (labelTokens alias? name) := by
  cases alias? <;> simp [AllRead, labelTokens]

theorem allRead_condition (condition? : Option String) : AllRead (conditionTokens condition?) := by
  cases condition? <;> simp [AllRead, conditionTokens]

/-! ## Trees -/

/-- What a single token stands for as a value. -/
def Token.value? : Token → Option Value
  | .name s => some (Grammar.ofName s)
  | .int n => some (.int n)
  | .float x => some (.float x)
  | .string s => some (.string s)
  | .symbol _ => none
  | .spread => none

section Reread

variable (read : Reading)

/-- A literal as it is read; one that is not read stays. -/
def rereadLiteral (indent : Nat) (literal : Value) : Value :=
  ((read indent literal).bind Token.value?).getD literal

theorem rereadLiteral_eq {read : Reading} {indent : Nat} {literal v : Value} {t : Token}
    (h : read indent literal = some t) (hv : t.value? = some v) :
    rereadLiteral read indent literal = v := by
  rw [rereadLiteral, h, Option.bind_some, hv, Option.getD_some]

mutual

def Value.reread (indent : Nat) : Value → Value
  | .int n => rereadLiteral read indent (.int n)
  | .float x => rereadLiteral read indent (.float x)
  | .string s => rereadLiteral read indent (.string s)
  | .list items => .list (rereadItems indent items)
  | .object fields => .object (rereadFields indent fields)
  | v => v

def rereadItems (indent : Nat) : List Value → List Value
  | [] => []
  | v :: vs => v.reread indent :: rereadItems indent vs

def rereadFields (indent : Nat) : List (String × Value) → List (String × Value)
  | [] => []
  | (k, v) :: fields => (k, v.reread indent) :: rereadFields indent fields

end

def Directive.reread (indent : Nat) (d : Directive) : Directive where
  name := d.name
  arguments := rereadFields read indent d.arguments

mutual

/-- Positions are not printed and come out as the first. -/
def Selection.reread (indent : Nat) : Selection → Selection
  | .field _ alias? name arguments directives selections =>
    .field .start alias? name (rereadFields read indent arguments)
      (directives.map (Directive.reread read indent)) (rereadAll (indent + 2) selections)
  | .spread _ name directives => .spread .start name (directives.map (Directive.reread read indent))
  | .inline _ condition? directives selections =>
    .inline .start condition? (directives.map (Directive.reread read indent))
      (rereadAll (indent + 2) selections)

def rereadAll (indent : Nat) : List Selection → List Selection
  | [] => []
  | s :: ss => s.reread indent :: rereadAll indent ss

end

def VariableDefinition.reread (v : VariableDefinition) : VariableDefinition where
  name := v.name
  type := v.type
  default? := v.default?.map (Value.reread read 0)

def OperationDefinition.reread (d : OperationDefinition) : OperationDefinition where
  position := .start
  kind := d.kind
  name? := d.name?
  variableDefinitions := d.shown.map (VariableDefinition.reread read)
  directives := d.directives.map (Directive.reread read 0)
  selections := rereadAll read 2 d.selections

def FragmentDefinition.reread (d : FragmentDefinition) : FragmentDefinition where
  position := .start
  name := d.name
  condition := d.condition
  directives := d.directives.map (Directive.reread read 0)
  selections := rereadAll read 2 d.selections

/-- A definition with each literal as it is read from the print. -/
def Definition.reread : Definition → Definition
  | .shorthand _ selections => .shorthand .start (rereadAll read 2 selections)
  | .operation d => .operation (d.reread read)
  | .fragment d => .fragment (d.reread read)

end Reread

/-! ## Nothing read -/

/-- No literal is read. -/
def unread : Reading := fun _ _ => none

mutual

theorem Value.reread_unread (indent : Nat) : ∀ v : Value, v.reread unread indent = v
  | .int _ => rfl
  | .float _ => rfl
  | .string _ => rfl
  | .variable _ => rfl
  | .boolean _ => rfl
  | .null => rfl
  | .enum _ => rfl
  | .list items => by rw [Value.reread, rereadItems_unread indent items]
  | .object fields => by rw [Value.reread, rereadFields_unread indent fields]

theorem rereadItems_unread (indent : Nat) : ∀ vs : List Value, rereadItems unread indent vs = vs
  | [] => rfl
  | v :: vs => by rw [rereadItems, v.reread_unread indent, rereadItems_unread indent vs]

theorem rereadFields_unread (indent : Nat) :
    ∀ fields : List (String × Value), rereadFields unread indent fields = fields
  | [] => rfl
  | (k, v) :: fields => by
    rw [rereadFields, v.reread_unread indent, rereadFields_unread indent fields]

end

theorem Directive.reread_unread (indent : Nat) (d : Directive) : d.reread unread indent = d := by
  rw [reread, rereadFields_unread]

theorem map_reread_unread (indent : Nat) (ds : List Directive) :
    ds.map (Directive.reread unread indent) = ds :=
  (List.map_congr_left fun d _ => d.reread_unread indent).trans (List.map_id ds)

theorem map_variables_unread (vs : List VariableDefinition) :
    vs.map (VariableDefinition.reread unread) = vs := by
  refine (List.map_congr_left fun v _ => ?_).trans (List.map_id vs)
  obtain ⟨name, type, default?⟩ := v
  cases default? with
  | none => rfl
  | some d => rw [VariableDefinition.reread, Option.map_some, Value.reread_unread]; rfl

end Composables.Graphql
