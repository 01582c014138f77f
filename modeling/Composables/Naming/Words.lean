import Composables.Text.Basic

/-
  Words of a name, and the name with capitals at the front of its words. Only the letters and digits of ASCII
  belong to words.
-/

namespace Composables.Naming

/-- Whether a new word begins at `d`, behind `c` and in front of `next`: at a capital behind a small letter or a
digit, and at the last capital of several in front of a small letter. -/
def startsWord (c d : Char) (next : Option Char) : Bool :=
  d.isUpper && (c.isLower || c.isDigit || (c.isUpper && next.any Char.isLower))

/-- The words of a name. -/
def words : List Char → List (List Char)
  | [] => []
  | c :: cs =>
    if c.isAlphanum then
      match cs with
      | [] => [[c]]
      | d :: rest =>
        if d.isAlphanum && !startsWord c d rest.head? then Text.attach c (words (d :: rest))
        else [c] :: words (d :: rest)
    else words cs

/-- A word with a capital in front and small letters behind it. -/
def capitalize : List Char → List Char
  | [] => []
  | c :: cs => c.toUpper :: cs.map Char.toLower

/-- A word behind another one. An underscore keeps a digit apart from what stands before it. -/
def capitalizeNext (word : List Char) : List Char :=
  if (word.head?.any Char.isDigit) then '_' :: capitalize word else capitalize word

/-- The words of a name, written together with capitals. -/
def pascalCase (cs : List Char) : List Char :=
  match words cs with
  | [] => []
  | first :: rest => capitalize first ++ rest.flatMap capitalizeNext

end Composables.Naming
