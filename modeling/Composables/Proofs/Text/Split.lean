import Composables.Text.Basic

/-
  Cutting at a separator. Texts on both sides of a separator are cut by themselves, so pieces
  without separators are what their join is cut into (`split_join`).
-/

namespace Composables.Text

variable {sep : Char}

/-- A separator between two texts is one between their pieces. -/
theorem split_append_sep (as bs : List Char) :
    split sep (as ++ sep :: bs) = split sep as ++ split sep bs := by
  induction as with
  | nil =>
      show (if sep = sep then [] :: split sep bs else attach sep (split sep bs)) = _
      exact if_pos rfl
  | cons a as ih =>
      rw [List.cons_append, split, split, ih]
      split
      · rfl
      · obtain ⟨piece, pieces, hsplit⟩ := List.exists_cons_of_ne_nil (split_ne_nil sep as)
        rw [hsplit]
        rfl

theorem split_of_not_mem {piece : List Char} (h : sep ∉ piece) : split sep piece = [piece] := by
  induction piece with
  | nil => rfl
  | cons c piece ih =>
      rw [List.mem_cons, not_or] at h
      rw [split, if_neg (Ne.symm h.1), ih h.2, attach]

theorem split_join {pieces : List (List Char)} (hne : pieces ≠ []) (h : ∀ l ∈ pieces, sep ∉ l) :
    split sep (join [sep] pieces) = pieces := by
  induction pieces with
  | nil => exact absurd rfl hne
  | cons piece pieces ih =>
      rw [List.forall_mem_cons] at h
      by_cases hpieces : pieces = []
      · subst hpieces
        exact split_of_not_mem h.1
      · rw [join_cons_of_ne_nil hpieces, List.append_assoc, List.singleton_append,
          split_append_sep, split_of_not_mem h.1, ih hpieces h.2, List.singleton_append]

theorem join_eq_intercalate (pieces : List (List Char)) :
    join [sep] pieces = [sep].intercalate pieces := by
  induction pieces with
  | nil => rfl
  | cons piece pieces ih =>
      cases pieces with
      | nil => exact (List.intercalate_singleton ..).symm
      | cons next pieces =>
          rw [join_cons_of_ne_nil (List.cons_ne_nil _ _), ih, List.intercalate_cons_cons]

theorem subset_join {sep piece : List Char} {pieces : List (List Char)} (h : piece ∈ pieces) :
    piece ⊆ join sep pieces := by
  induction pieces with
  | nil => cases h
  | cons first pieces ih =>
      rcases List.mem_cons.mp h with rfl | h
      · cases pieces with
        | nil => exact List.Subset.refl piece
        | cons next pieces =>
            rw [join_cons_of_ne_nil (List.cons_ne_nil _ _), List.append_assoc]
            exact List.subset_append_left _ _
      · rw [join_cons_of_ne_nil (List.ne_nil_of_mem h)]
        exact List.subset_append_of_subset_right _ (ih h)

theorem subset_of_mem_split {piece cs : List Char} (h : piece ∈ split sep cs) : piece ⊆ cs := by
  have hjoin : piece ⊆ join [sep] (split sep cs) := subset_join h
  rwa [join_split] at hjoin

theorem split_cons_of_ne {c : Char} (h : c ≠ sep) (cs : List Char) :
    ∃ piece pieces, split sep (c :: cs) = (c :: piece) :: pieces := by
  rw [split, if_neg h]
  cases split sep cs with
  | nil => exact ⟨[], [], rfl⟩
  | cons piece pieces => exact ⟨piece, pieces, rfl⟩

end Composables.Text
