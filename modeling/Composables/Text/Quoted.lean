import Composables.Text.Printable

/-
  Text in quotes as messages show it: one line, every character visible.
-/

namespace Composables.Text

/-- The lower-case hexadecimal digits of a number. -/
def hexDigits (n : Nat) : List Char := Nat.toDigits 16 n

/-- A character inside quotes. One that is not visible by itself is shown by its number in braces. -/
def showChar (c : Char) : List Char :=
  match c with
  | '\x00' => ['\\', '0']
  | '\n' => ['\\', 'n']
  | '\r' => ['\\', 'r']
  | '\t' => ['\\', 't']
  | '"' => ['\\', '"']
  | '\\' => ['\\', '\\']
  | c => if isVisible c then [c] else ['\\', 'u', '\x7b'] ++ hexDigits c.toNat ++ ['\x7d']

def showQuoted (s : String) : String := "\"" ++ String.ofList (s.toList.flatMap showChar) ++ "\""

end Composables.Text
