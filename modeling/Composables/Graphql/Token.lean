import Composables.Graphql.BlockString
import Composables.Graphql.Numeral
import Composables.Graphql.StringLiteral
import Composables.Graphql.Syntax

/-
  Cutting GraphQL text into tokens. Each token is cut off by its class and then read; the scan ends at the
  end of the text or at the first place where no token stands.
-/

namespace Composables.Graphql

inductive Token where
  | symbol (c : Char)
  /-- Three dots. -/
  | spread
  | name (s : String)
  | int (n : Int)
  | float (x : Decimal.Binary64)
  | string (s : String)
deriving DecidableEq, Repr

/-- A token where it stands. -/
structure Lexeme where
  position : Position
  token : Token
deriving DecidableEq, Repr

namespace Token

/-! ## Characters between tokens -/

/-- The place after a character that belongs to no token. A tab counts eight columns; carriage returns and
byte order marks count none. -/
def passSpace (p : Position) (c : Char) : Position :=
  if c == '\n' then ⟨p.line + 1, 1⟩
  else if c == '\t' then ⟨p.line, p.column + 8⟩
  else if c == ' ' || c == ',' then ⟨p.line, p.column + 1⟩
  else p

def isSpace (c : Char) : Bool :=
  c == ' ' || c == ',' || c == '\t' || c == '\r' || c == '\n' || c == '\uFEFF'

def isLineEnd (c : Char) : Bool := c == '\r' || c == '\n'

/-- Leaves out white space and comments. A comment runs to the end of its line, and the character that ends it
opens the next; the text of a comment counts no columns. -/
def skipIgnored (p : Position) : List Char → Position × List Char
  | [] => (p, [])
  | '#' :: cs => skipComment p cs
  | c :: cs => if isSpace c then skipIgnored (passSpace p c) cs else (p, c :: cs)
where
  skipComment (p : Position) : List Char → Position × List Char
    | [] => (p, [])
    | c :: cs => if isLineEnd c then skipIgnored ⟨p.line + 1, 1⟩ cs else skipComment p cs

/-! ## Cutting -/

def symbols : List Char := ['(', ')', '[', ']', '\x7b', '\x7d', '!', '$', ':', '=', '@', '|', '&']

def isSymbol (c : Char) : Bool := symbols.contains c

def isNameStart (c : Char) : Bool := c.isAlpha || c == '_'

def isNameChar (c : Char) : Bool := c.isAlphanum || c == '_'

def isNumberStart (c : Char) : Bool := c.isDigit || c == '-'

/-- Whether a character ends a number in front of it. -/
def endsNumber (c : Char) : Bool :=
  c == ' ' || c == '\t' || isLineEnd c || c == ',' || c == '#' || isSymbol c

/-- The text of a string up to its closing quote, and what follows the quote. -/
def cutQuoted? : List Char → Option (List Char × List Char)
  | [] => none
  | '"' :: cs => some ([], cs)
  | '\n' :: _ => none
  | '\\' :: c :: cs =>
    if c = '\n' then none else (cutQuoted? cs).map fun r => ('\\' :: c :: r.1, r.2)
  | c :: cs => (cutQuoted? cs).map fun r => (c :: r.1, r.2)

/-- The text of a block string up to its closing quotes, and what follows them. Triple quotes directly behind a
backslash do not close it. -/
def cutBlock? : List Char → Option (List Char × List Char)
  | [] => none
  | '"' :: '"' :: '"' :: cs => some ([], cs)
  | '\\' :: '"' :: '"' :: '"' :: cs =>
    (cutBlock? cs).map fun r => ('\\' :: '"' :: '"' :: '"' :: r.1, r.2)
  | c :: cs => (cutBlock? cs).map fun r => (c :: r.1, r.2)

/-- A string without an error in it. -/
def ofQuoted? (cs : List Char) : Option Token :=
  (StringLiteral.decode? cs).map fun cs => .string (String.ofList cs)

def ofNumeral? (cs : List Char) : Option Token :=
  if Numeral.isFloat cs then (Numeral.float? cs).map .float else (Numeral.int? cs).map .int

/-- A token cut off the front of a text. -/
structure Cut where
  token : Token
  /-- The characters of the token. -/
  text : List Char
  rest : List Char
deriving DecidableEq, Repr

/-- The token at the front of a text. -/
def cut? : List Char → Option Cut
  | [] => none
  | '.' :: '.' :: '.' :: cs => some ⟨.spread, ['.', '.', '.'], cs⟩
  | '"' :: '"' :: '"' :: cs => do
    let (inner, rest) ← cutBlock? cs
    let quotes := ['"', '"', '"']
    return ⟨.string (String.ofList (BlockString.decode inner)), quotes ++ inner ++ quotes, rest⟩
  | '"' :: cs => do
    let (inner, rest) ← cutQuoted? cs
    return ⟨← ofQuoted? inner, '"' :: inner ++ ['"'], rest⟩
  | c :: cs =>
    if isSymbol c then some ⟨.symbol c, [c], cs⟩
    else if isNameStart c then
      let text := c :: cs.takeWhile isNameChar
      some ⟨.name (String.ofList text), text, cs.dropWhile isNameChar⟩
    else if isNumberStart c then do
      let text := c :: cs.takeWhile fun c => !endsNumber c
      return ⟨← ofNumeral? text, text, cs.dropWhile fun c => !endsNumber c⟩
    else none

/-- The place after a character of a token. -/
def pass (p : Position) (c : Char) : Position :=
  if c == '\n' then ⟨p.line + 1, 1⟩ else ⟨p.line, p.column + 1⟩

end Token

/-! ## Scanning -/

/-- The tokens of a text, the place where they end, and whether that is the end of the text. -/
structure Scan where
  lexemes : List Lexeme
  stop : Position
  complete : Bool
deriving DecidableEq, Repr

/-- Scans from a place on; `room` bounds the number of tokens. -/
def Scan.from : Nat → Position → List Char → Scan
  | 0, p, _ => ⟨[], p, false⟩
  | room + 1, p, cs =>
    match Token.skipIgnored p cs with
    | (p, []) => ⟨[], p, true⟩
    | (p, cs) =>
      match Token.cut? cs with
      | none => ⟨[], p, false⟩
      | some c =>
        let scan := Scan.from room (c.text.foldl Token.pass p) c.rest
        ⟨⟨p, c.token⟩ :: scan.lexemes, scan.stop, scan.complete⟩

/-- The tokens of a text; none is empty, so there are no more of them than characters. -/
def Scan.ofText (cs : List Char) : Scan := Scan.from (cs.length + 1) Position.start cs

end Composables.Graphql
