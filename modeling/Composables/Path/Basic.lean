import Composables.Text.Basic

/-
  File paths with `/` between their segments. A path keeps its text; what it names is its list of
  components, in which empty segments and inner `.` do not count and `..` does.
-/

namespace Composables

/-- A path, as it is written. -/
structure Path where
  text : String
deriving DecidableEq, Repr, Inhabited

namespace Path

inductive Component where
  | root
  /-- A `.` that opens a relative path. -/
  | here
  | up
  | name (s : String)
deriving DecidableEq, Repr

/-- A piece of the text between slashes. -/
abbrev Segment := List Char

/-- The component a segment stands for behind the first one; empty segments and `.` stand for none. -/
def Component.ofSegment? : Segment → Option Component
  | [] => none
  | ['.'] => none
  | ['.', '.'] => some .up
  | s => some (.name (String.ofList s))

def segments (p : Path) : List Segment := Text.split '/' p.text.toList

def ofSegments (ss : List Segment) : Path := ⟨String.ofList (Text.join ['/'] ss)⟩

/-- The components of a list of segments. An empty first segment before a slash is the root. -/
def componentsOf : List Segment → List Component
  | [] => []
  | [] :: [] => []
  | [] :: ss => .root :: ss.filterMap Component.ofSegment?
  | ['.'] :: ss => .here :: ss.filterMap Component.ofSegment?
  | s :: ss => (s :: ss).filterMap Component.ofSegment?

def components (p : Path) : List Component := componentsOf p.segments

def isAbsolute (p : Path) : Bool := p.text.toList.head? == some '/'

/-- Whether two paths have the same components, so that they name one file. -/
def same (p q : Path) : Bool := p.components == q.components

/-- The last component, if it is a name. -/
def fileName? (p : Path) : Option String :=
  match p.components.getLast? with
  | some (.name s) => some s
  | _ => none

/-- A file name cut at its last dot; a dot at the front opens no extension. -/
def cutName (name : String) : String × Option String :=
  match name.toList.reverse.span (· ≠ '.') with
  | (_, []) => (name, none)
  | (_, [_]) => (name, none)
  | (after, _ :: before) => (String.ofList before.reverse, some (String.ofList after.reverse))

/-- The file name without its last extension; empty if there is no file name. -/
def stem (p : Path) : String := ((p.fileName?.map cutName).map (·.1)).getD ""

def extension? (p : Path) : Option String := p.fileName?.bind fun name => (cutName name).2

/-- Leaves out the trailing segments that stand for no component. -/
def dropIdle (ss : List Segment) : List Segment :=
  (ss.reverse.dropWhile fun s => (Component.ofSegment? s).isNone).reverse

/-- The path without its last component; the root and the empty path have no parent. -/
def parent? (p : Path) : Option Path :=
  match p.segments with
  | [] => none
  | first :: rest =>
    match dropIdle rest with
    | [] => if first.isEmpty then none else some ⟨""⟩
    | ss =>
      let above := dropIdle ss.dropLast
      if first.isEmpty && above.isEmpty then some ⟨"/"⟩ else some (ofSegments (first :: above))

/-- The path and its parents, as far as there are any within `room` steps. -/
def ancestorsWithin : Nat → Path → List Path
  | 0, p => [p]
  | room + 1, p =>
    match p.parent? with
    | some q => p :: ancestorsWithin room q
    | none => [p]

/-- The path, its parent, the parent of that, and so on; each loses a segment. -/
def ancestors (p : Path) : List Path := ancestorsWithin p.segments.length p

/-- A path inside a directory; an absolute path replaces the directory. -/
def join (dir p : Path) : Path :=
  if p.isAbsolute then p
  else if dir.text.isEmpty || dir.text.toList.getLast? == some '/' then ⟨dir.text ++ p.text⟩
  else ⟨dir.text ++ "/" ++ p.text⟩

/-- Puts another file name in the place of the path's; without one, it is put behind the path. -/
def withFileName (p : Path) (name : String) : Path :=
  match p.fileName? with
  | some _ => (p.parent?.getD p).join ⟨name⟩
  | none => p.join ⟨name⟩

instance : ToString Path := ⟨Path.text⟩

/-! ## Segments -/

theorem ofSegments_segments (p : Path) : ofSegments p.segments = p := by
  simp [ofSegments, segments, Text.join_split]

theorem same_refl (p : Path) : p.same p = true := by simp [same]

theorem same_symm {p q : Path} (h : p.same q = true) : q.same p = true := by
  simp only [same, beq_iff_eq] at *
  exact h.symm

theorem same_trans {p q r : Path} (h : p.same q = true) (h' : q.same r = true) :
    p.same r = true := by
  simp only [same, beq_iff_eq] at *
  exact h.trans h'

end Path

end Composables
