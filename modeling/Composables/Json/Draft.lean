import Composables.Json.Numeral

/-
  JSON text read as far as it is well formed. A draft keeps what stands before the first fault, so that
  whoever decodes it in the order of the text meets the faults of the text and its own in one order.
-/

namespace Composables.Json

/-- A value as far as its text could be read. -/
inductive Draft where
  /-- Here stands no value, or one that breaks off. -/
  | unreadable
  | null
  | bool (b : Bool)
  | number (n : Numeral)
  /-- A string; `none` if its escapes leave half of a surrogate pair. -/
  | string (text : Option String)
  /-- The items up to the end or the first fault, and whether the end was reached. -/
  | array (items : List Draft) (closed : Bool)
  /-- Names and values up to the end or the first fault, and whether the end was reached. A name has no text
  if its escapes leave half of a surrogate pair. -/
  | object (members : List (Option String × Draft)) (closed : Bool)
deriving Repr, Inhabited

namespace Draft

/-- Whether the text of the value is well formed to its end. -/
def isWhole : Draft → Bool
  | .unreadable => false
  | .array _ closed => closed
  | .object _ closed => closed
  | _ => true

def isSpace (c : Char) : Bool := c == ' ' || c == '\n' || c == '\t' || c == '\r'

def skipSpace (cs : List Char) : List Char := cs.dropWhile isSpace

/-! ## Strings -/

def isSurrogate (n : Nat) : Bool := 0xD800 ≤ n && n < 0xE000

/-- A piece of a string: a character, or half of a surrogate pair. -/
inductive Piece where
  | char (c : Char)
  | half (n : Nat)
deriving DecidableEq, Repr

def Piece.ofUnit (n : Nat) : Piece := if isSurrogate n then .half n else .char (Char.ofNat n)

/-- The characters that stand for themselves or for a control character behind a backslash. -/
def unescape? : Char → Option Char
  | '"' => some '"'
  | '\\' => some '\\'
  | '/' => some '/'
  | 'b' => some '\x08'
  | 'f' => some '\x0c'
  | 'n' => some '\n'
  | 'r' => some '\r'
  | 't' => some '\t'
  | _ => none

/-- The pieces up to the closing quote, and the text after it. -/
def pieces? : List Char → Option (List Piece × List Char)
  | [] => none
  | '"' :: cs => some ([], cs)
  | '\\' :: 'u' :: a :: b :: c :: d :: cs => do
    let n ← Text.hexValue? [a, b, c, d]
    let (ps, rest) ← pieces? cs
    return (.ofUnit n :: ps, rest)
  | '\\' :: c :: cs => do
    let e ← unescape? c
    let (ps, rest) ← pieces? cs
    return (.char e :: ps, rest)
  | c :: cs =>
    if c.toNat < 0x20 || c == '\\' then none
    else do
      let (ps, rest) ← pieces? cs
      return (.char c :: ps, rest)

/-- The text of the pieces: a leading half must be followed at once by a trailing one. -/
def assemble? : List Piece → Option (List Char)
  | [] => some []
  | .char c :: ps => (assemble? ps).map (c :: ·)
  | .half m :: .half n :: ps =>
    if m < 0xDC00 && 0xDC00 ≤ n then
      (assemble? ps).map (Char.ofNat (0x10000 + (m - 0xD800) * 0x400 + (n - 0xDC00)) :: ·)
    else none
  | .half _ :: _ => none

/-- The string whose opening quote stands in front of the text, and the text after it. -/
def string? (cs : List Char) : Option (Option String × List Char) :=
  (pieces? cs).map fun r => ((assemble? r.1).map String.ofList, r.2)

/-! ## Values -/

/-- What an item or a member leaves behind: the entries from it on, whether the end was reached, and
the text after the end. -/
abbrev Entries (α : Type) := List α × Bool × List Char

mutual

/-- The value at the front of the text; `fuel` bounds the steps. -/
def value : Nat → List Char → Draft × List Char
  | 0, cs => (.unreadable, cs)
  | fuel + 1, cs =>
    match skipSpace cs with
    | 'n' :: 'u' :: 'l' :: 'l' :: cs => (.null, cs)
    | 't' :: 'r' :: 'u' :: 'e' :: cs => (.bool true, cs)
    | 'f' :: 'a' :: 'l' :: 's' :: 'e' :: cs => (.bool false, cs)
    | '"' :: cs =>
      match string? cs with
      | some (text, rest) => (.string text, rest)
      | none => (.unreadable, [])
    | '[' :: cs =>
      match skipSpace cs with
      | ']' :: rest => (.array [] true, rest)
      | cs =>
        let (items, closed, rest) := items fuel cs
        (.array items closed, rest)
    | '{' :: cs =>
      match skipSpace cs with
      | '}' :: rest => (.object [] true, rest)
      | cs =>
        let (members, closed, rest) := members fuel cs
        (.object members closed, rest)
    | cs =>
      match Numeral.read? cs with
      | some (n, rest) => (.number n, rest)
      | none => (.unreadable, [])

/-- The items from here to the closing bracket. -/
def items : Nat → List Char → Entries Draft
  | 0, _ => ([], false, [])
  | fuel + 1, cs =>
    let (item, cs) := value fuel cs
    if !item.isWhole then ([item], false, []) else
    match skipSpace cs with
    | ',' :: cs =>
      let (items, closed, rest) := items fuel cs
      (item :: items, closed, rest)
    | ']' :: rest => ([item], true, rest)
    | _ => ([item], false, [])

/-- The members from here to the closing brace. -/
def members : Nat → List Char → Entries (Option String × Draft)
  | 0, _ => ([], false, [])
  | fuel + 1, cs =>
    match skipSpace cs with
    | '"' :: cs =>
      match string? cs with
      | none => ([], false, [])
      | some (name, cs) =>
        match skipSpace cs with
        | ':' :: cs =>
          let (item, cs) := value fuel cs
          if !item.isWhole then ([(name, item)], false, []) else
          match skipSpace cs with
          | ',' :: cs =>
            let (members, closed, rest) := members fuel cs
            ((name, item) :: members, closed, rest)
          | '}' :: rest => ([(name, item)], true, rest)
          | _ => ([(name, item)], false, [])
        | _ => ([(name, .unreadable)], false, [])
    | _ => ([], false, [])

end

/-- The value of a text, and whether nothing but white space follows it. Each character costs at most
two steps. -/
def read (text : String) : Draft × Bool :=
  let cs := text.toList
  let (draft, rest) := value (2 * cs.length + 2) cs
  (draft, (skipSpace rest).isEmpty)

/-! ## Decoding -/

mutual

/-- The value of a well-formed text in which fewer than `room` brackets are open at any place.
A string with half a surrogate pair and a number that is too large have no value. -/
def toJson? (room : Nat) : Draft → Option Json
  | .unreadable => none
  | .null => some .null
  | .bool b => some (.bool b)
  | .number n => n.value?
  | .string text => text.map Json.string
  | .array items closed =>
    if room ≤ 1 then none else do
      let items ← itemsToJson? (room - 1) items
      guard closed
      return .array items
  | .object members closed =>
    if room ≤ 1 then none else do
      let members ← membersToJson? (room - 1) members
      guard closed
      return .object (members.foldl (fun ms m => Members.insert m.1 m.2 ms) [])

def itemsToJson? (room : Nat) : List Draft → Option (List Json)
  | [] => some []
  | item :: items => do
    let v ← toJson? room item
    let vs ← itemsToJson? room items
    return v :: vs

def membersToJson? (room : Nat) : List (Option String × Draft) → Option (List (String × Json))
  | [] => some []
  | (some k, item) :: members => do
    let v ← toJson? room item
    let ms ← membersToJson? room members
    return (k, v) :: ms
  | _ => none

end

end Draft

/-- How many brackets may be open in a text that is decoded. -/
def depthLimit : Nat := 128

/-- The value of a JSON text. -/
def parse? (text : String) : Option Json :=
  match Draft.read text with
  | (draft, true) => draft.toJson? depthLimit
  | (_, false) => none

end Composables.Json
