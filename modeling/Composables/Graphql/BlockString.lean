import Composables.Graphql.StringLiteral
import Composables.Text.Basic
import Composables.Text.Blank

/-
  Block strings, which stand between triple quotes: what they stand for, and how a text is laid out as one.
-/

namespace Composables.Graphql.BlockString

abbrev Line := List Char

def isBlankLine (l : Line) : Bool := l.all Text.isBlank

/-- The number of bytes that characters take in UTF-8. -/
def byteLength : List Char → Nat
  | [] => 0
  | c :: cs => c.utf8Size + byteLength cs

/-- Leaves out characters from the front, until they took a number of bytes. -/
def dropBytes : Nat → List Char → List Char
  | _, [] => []
  | n, c :: cs => if n = 0 then c :: cs else dropBytes (n - c.utf8Size) cs

/-- The number of bytes of white space in front of a line. -/
def indentOf (l : Line) : Nat := byteLength (l.takeWhile Text.isBlank)

/-- The smallest indent of the lines that hold anything. -/
def commonIndent (ls : List Line) : Nat :=
  (((ls.filter fun l => !isBlankLine l).map indentOf).min?).getD 0

/-- Takes an indent off a line; a shorter line stays as it is. -/
def outdent (n : Nat) (l : Line) : Line := if n ≤ byteLength l then dropBytes n l else l

/-- Leaves out blank lines at both ends. -/
def trimLines (ls : List Line) : List Line :=
  (((ls.dropWhile isBlankLine).reverse).dropWhile isBlankLine).reverse

/-- Triple quotes behind a backslash stand for themselves. -/
def unescapeQuotes : List Char → List Char
  | '\\' :: '"' :: '"' :: '"' :: cs => '"' :: '"' :: '"' :: unescapeQuotes cs
  | c :: cs => c :: unescapeQuotes cs
  | [] => []

/-- Puts a backslash in front of triple quotes. -/
def escapeQuotes : List Char → List Char
  | '"' :: '"' :: '"' :: cs => '\\' :: '"' :: '"' :: '"' :: escapeQuotes cs
  | c :: cs => c :: escapeQuotes cs
  | [] => []

/-- The text between the quotes of a block string, read. The line of the opening quotes keeps its indent and
does not count for the common one. -/
def decode (cs : List Char) : List Char :=
  match Text.lines cs with
  | [] => []
  | first :: rest =>
    let n := commonIndent rest
    Text.join ['\n'] ((trimLines (first :: rest.map (outdent n))).map unescapeQuotes)

/-- Whether a text is written as a block: it has a line feed, and no character that needs a number. -/
def fits (cs : List Char) : Bool :=
  cs.contains '\n' && cs.all fun c => c == '\r' || c == '\t' || c == '\n' || StringLiteral.isPlain c

/-- A block string whose closing quotes stand at an indent, with the text two columns deeper. -/
def encode (indent : Nat) (cs : List Char) : List Char :=
  let line (l : Line) : List Char :=
    if isBlankLine l then ['\n'] else List.replicate (indent + 2) ' ' ++ escapeQuotes l ++ ['\n']
  ['"', '"', '"', '\n'] ++ (Text.lines cs).flatMap line ++ List.replicate indent ' ' ++ ['"', '"', '"']

end Composables.Graphql.BlockString
