import Composables.Text.Digits

/-
  Strings in quotes: what a literal stands for, and the literal written for a text.
-/

namespace Composables.Graphql.StringLiteral

/-- The character a single letter stands for behind a backslash. -/
def unescape? : Char → Option Char
  | '"' => some '"'
  | '\\' => some '\\'
  | '/' => some '/'
  | 'b' => some '\x10'
  | 'f' => some '\x0c'
  | 'n' => some '\n'
  | 'r' => some '\r'
  | 't' => some '\t'
  | _ => none

/-- The character with a number, unless the number is half of a surrogate pair. -/
def ofCode? (n : Nat) : Option Char :=
  if n.isValidChar then some (Char.ofNat n) else none

/-- The code written by four characters: hexadecimal digits, of which a plus sign may take the first place. -/
def code? : List Char → Option Nat
  | '+' :: ds => Text.hexValue? ds
  | ds => Text.hexValue? ds

/-- The text between the quotes of a literal, read. -/
def decode? : List Char → Option (List Char)
  | [] => some []
  | '\\' :: 'u' :: a :: b :: c :: d :: cs => do
    let n ← code? [a, b, c, d]
    let e ← ofCode? n
    return e :: (← decode? cs)
  | '\\' :: c :: cs => do
    let e ← unescape? c
    return e :: (← decode? cs)
  | '\\' :: [] => none
  | c :: cs => (decode? cs).map (c :: ·)

/-- The digits of a number, at least four. -/
def paddedDigits (n : Nat) : List Char :=
  let ds := (toString n).toList
  List.replicate (4 - ds.length) '0' ++ ds

/-- Whether a character is written as it is, apart from the quote and the backslash. -/
def isPlain (c : Char) : Bool := 0x20 ≤ c.toNat && c.toNat ≤ 0xFFFF

/-- A character inside quotes. One outside the plain range is written by its decimal number. -/
def escapeChar (c : Char) : List Char :=
  match c with
  | '\r' => ['\\', 'r']
  | '\n' => ['\\', 'n']
  | '\t' => ['\\', 't']
  | '"' => ['\\', '"']
  | '\\' => ['\\', '\\']
  | c => if isPlain c then [c] else '\\' :: 'u' :: paddedDigits c.toNat

def encode (cs : List Char) : List Char := cs.flatMap escapeChar

end Composables.Graphql.StringLiteral
