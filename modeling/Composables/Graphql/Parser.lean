import Composables.Graphql.Token

/-
  Parsers over a list of tokens. A parser that fails names the tokens left, of which the first cannot
  continue; the grammars look one token ahead.
-/

namespace Composables.Graphql

abbrev Parser (α : Type) := StateT (List Lexeme) (Except (List Lexeme)) α

namespace Parser

/-- Fails at the next token. -/
def fail {α : Type} : Parser α := fun ls => .error ls

/-- Fails at tokens seen before. -/
def failAt {α : Type} (ls : List Lexeme) : Parser α := fun _ => .error ls

/-- The next token, which stays. -/
def peek? : Parser (Option Token) := fun ls => .ok (ls.head?.map (·.token), ls)

def skip : Parser Unit := fun ls => .ok ((), ls.tail)

/-- The place of the next token; where the text ends it is of no use, for then the parser fails next. -/
def position : Parser Position := fun ls => .ok ((ls.head?.map (·.position)).getD Position.start, ls)

/-- Takes one given token. -/
def expect (t : Token) : Parser Unit := fun ls =>
  match ls with
  | l :: rest => if l.token = t then .ok ((), rest) else .error ls
  | [] => .error ls

def symbol (c : Char) : Parser Unit := expect (.symbol c)

def keyword (s : String) : Parser Unit := expect (.name s)

def name : Parser String := fun ls =>
  match ls with
  | ⟨_, .name s⟩ :: rest => .ok (s, rest)
  | _ => .error ls

/-- Takes a token if it is next. -/
def accept (t : Token) : Parser Bool := fun ls =>
  match ls with
  | l :: rest => if l.token = t then .ok (true, rest) else .ok (false, ls)
  | [] => .ok (false, ls)

/-- Runs a parser if its first token is next. -/
def optional {α : Type} (starts : Token → Bool) (p : Parser α) : Parser (Option α) := fun ls =>
  match ls with
  | l :: _ => if starts l.token then (p ls).map fun r => (some r.1, r.2) else .ok (none, ls)
  | [] => .ok (none, ls)

/-- Runs a parser as long as its first token is next. A parser that takes no token is run once. -/
def many {α : Type} (starts : Token → Bool) (p : Parser α) (ls : List Lexeme) :
    Except (List Lexeme) (List α × List Lexeme) :=
  match ls with
  | [] => .ok ([], [])
  | l :: ls =>
    if starts l.token then
      match p (l :: ls) with
      | .error e => .error e
      | .ok (a, rest) =>
        if rest.length ≤ ls.length then (many starts p rest).map fun r => (a :: r.1, r.2)
        else .ok ([a], rest)
    else .ok ([], l :: ls)
termination_by ls.length

/-- Runs a parser once, and again as long as its first token is next. -/
def many1 {α : Type} (starts : Token → Bool) (p : Parser α) : Parser (List α) := do
  let a ← p
  let as ← many starts p
  return a :: as

def isSymbol (c : Char) (t : Token) : Bool := t == .symbol c

def isName : Token → Bool
  | .name _ => true
  | _ => false

/-- Runs a parser on all of a text; on failure answers the place of the first token that cannot continue. -/
def run {α : Type} (p : Parser α) (text : String) : Except Position α :=
  let scan := Scan.ofText text.toList
  match p scan.lexemes with
  | .error [] => .error scan.stop
  | .error (l :: _) => .error l.position
  | .ok (_, l :: _) => .error l.position
  | .ok (a, []) => if scan.complete then .ok a else .error scan.stop

end Parser

end Composables.Graphql
