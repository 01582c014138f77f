import Composables.Path.Basic

/-
  Files and directories as a finite map from places to nodes. The places are kept in the order of a walk:
  a directory stands in front of what is in it, and siblings are sorted by name. Each place has a node of its
  own: there are no links, neither symbolic nor hard.
-/

namespace Composables

/-- A place: the names on the way to it from the root. -/
abbrev Place := List String

namespace FileSystem

inductive Contents where
  | text (s : String)
  /-- Bytes that are no text. -/
  | bytes (bs : List UInt8)
deriving DecidableEq, Repr, Inhabited

/-- Bytes, taken as text if they are UTF-8. -/
def Contents.ofBytes (bs : ByteArray) : Contents :=
  match String.fromUTF8? bs with
  | some s => .text s
  | none => .bytes bs.data.toList

inductive Node where
  | directory
  | file (contents : Contents)
deriving DecidableEq, Repr, Inhabited

abbrev Entries := List (Place × Node)

namespace Entries

def lookup (k : Place) : Entries → Option Node
  | [] => none
  | (k', n) :: es => if k = k' then some n else lookup k es

/-- Sets the node at a place. -/
def insert (k : Place) (n : Node) : Entries → Entries
  | [] => [(k, n)]
  | (k', n') :: es =>
    if k = k' then (k, n) :: es
    else if k < k' then (k, n) :: (k', n') :: es
    else (k', n') :: insert k n es

/-- Takes away a place and all below it. -/
def erase (k : Place) (es : Entries) : Entries := es.filter fun e => !k.isPrefixOf e.1

/-- The entries below a place, named by the way from there. -/
def below (k : Place) (es : Entries) : Entries :=
  es.filterMap fun e => if k.isPrefixOf e.1 && e.1 ≠ k then some (e.1.drop k.length, e.2) else none

/-! ## Looking up -/

theorem lookup_insert_self (k : Place) (n : Node) (es : Entries) : lookup k (insert k n es) = some n := by
  induction es with
  | nil => simp [insert, lookup]
  | cons e es ih =>
    unfold insert
    split
    · simp [lookup]
    · rename_i h
      split
      · simp [lookup]
      · simp [lookup, h, ih]

theorem lookup_insert_of_ne {k k' : Place} (n : Node) (es : Entries) (h : k' ≠ k) :
    lookup k' (insert k n es) = lookup k' es := by
  induction es with
  | nil => simp [insert, lookup, h]
  | cons e es ih =>
    unfold insert
    split
    · rename_i hk
      simp [lookup, ← hk, h]
    · split
      · simp [lookup, h]
      · simp [lookup, ih]

end Entries

end FileSystem

structure FileSystem where
  /-- Where relative paths begin. -/
  current : Place
  entries : FileSystem.Entries
deriving DecidableEq, Repr, Inhabited

namespace FileSystem

/-- What is at a place; the root is always a directory. -/
def node? (fs : FileSystem) (k : Place) : Option Node :=
  if k.isEmpty then some .directory else fs.entries.lookup k

def insert (fs : FileSystem) (k : Place) (n : Node) : FileSystem :=
  { fs with entries := fs.entries.insert k n }

end FileSystem

end Composables
