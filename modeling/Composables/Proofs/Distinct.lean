import Composables.Distinct
import Mathlib.Data.List.Induction
import Mathlib.Data.List.Basic

/-
  The order of first occurrences: they stand as they come in the list they are taken from
  (`pairwise_idxOf`), and those of a second list come behind those of the first
  (`extend_eq_append`).
-/

namespace Composables.Distinct

variable {α β : Type} [DecidableEq α]

theorem ofList_append (xs ys : List α) : ofList (xs ++ ys) = extend (ofList xs) ys :=
  List.foldl_append

/-- The first occurrences of a list's elements stand in the order in which they come there. -/
theorem pairwise_idxOf (xs : List α) :
    (ofList xs).Pairwise fun x y => xs.idxOf x < xs.idxOf y := by
  induction xs using List.reverseRecOn with
  | nil => exact List.Pairwise.nil
  | append_singleton xs x ih =>
      have hfront : (ofList xs).Pairwise fun y z =>
          (xs ++ [x]).idxOf y < (xs ++ [x]).idxOf z := by
        refine ih.imp_of_mem fun {y z} hy hz hlt => ?_
        rwa [List.idxOf_append_of_mem (mem_ofList.mp hy),
          List.idxOf_append_of_mem (mem_ofList.mp hz)]
      rw [ofList_append]
      show (push (ofList xs) x).Pairwise _
      rw [push]
      split
      · exact hfront
      · rename_i hx
        refine List.pairwise_append.mpr ⟨hfront, List.pairwise_singleton _ _, fun y hy z hz => ?_⟩
        rw [List.mem_singleton.mp hz, List.idxOf_append_of_mem (mem_ofList.mp hy),
          List.idxOf_append_of_notMem fun hmem => hx (mem_ofList.mpr hmem)]
        have := List.idxOf_lt_length_of_mem (mem_ofList.mp hy)
        omega

/-- Things put behind others are the first occurrences among them that are not there already. -/
theorem extend_eq_append (xs ys : List α) :
    extend xs ys = xs ++ (ofList ys).filter fun y => y ∉ xs := by
  induction ys using List.reverseRecOn with
  | nil => simp [ofList, extend]
  | append_singleton ys y ih =>
      have hextend : extend xs (ys ++ [y]) = push (extend xs ys) y := List.foldl_append
      have hofList : ofList (ys ++ [y]) = push (ofList ys) y := ofList_append ys [y]
      rw [hextend, hofList, ih]
      by_cases hxs : y ∈ xs
      · rw [push, if_pos (List.mem_append_left _ hxs), push]
        split
        · rfl
        · rw [List.filter_append, List.filter_cons_of_neg (by simpa using hxs), List.filter_nil,
            List.append_nil]
      · by_cases hys : y ∈ ofList ys
        · have hmem : y ∈ xs ++ (ofList ys).filter fun y => y ∉ xs :=
            List.mem_append_right _ (List.mem_filter.mpr ⟨hys, by simpa using hxs⟩)
          rw [push, if_pos hmem, push, if_pos hys]
        · have hmem : y ∉ xs ++ (ofList ys).filter fun y => y ∉ xs := fun h =>
            (List.mem_append.mp h).elim hxs fun h => hys (List.mem_filter.mp h).1
          rw [push, if_neg hmem, push, if_neg hys, List.filter_append, List.append_assoc,
            List.filter_cons_of_pos (by simpa using hxs), List.filter_nil]

/-- What comes first among the results of some elements also does among those of all. -/
theorem idxOf_map_lt {f : β → Option α} {zs : List β} {x y : α}
    (h : (zs.filterMap f).idxOf x < (zs.filterMap f).idxOf y) :
    (zs.map f).idxOf (some x) < (zs.map f).idxOf (some y) := by
  induction zs with
  | nil => exact absurd h (Nat.lt_irrefl _)
  | cons z zs ih =>
      rw [List.map_cons]
      cases hz : f z with
      | none =>
          rw [List.filterMap_cons_none hz] at h
          rw [List.idxOf_cons_ne _ (by simp), List.idxOf_cons_ne _ (by simp)]
          exact Nat.succ_lt_succ (ih h)
      | some v =>
          rw [List.filterMap_cons_some hz] at h
          have hy : v ≠ y := by
            rintro rfl
            rw [List.idxOf_cons_self] at h
            exact Nat.not_lt_zero _ h
          have hsome : some v ≠ some y := fun heq => hy (Option.some.inj heq)
          rw [List.idxOf_cons_ne _ hsome]
          by_cases hx : v = x
          · rw [hx, List.idxOf_cons_self]
            exact Nat.succ_pos _
          · have hsome : some v ≠ some x := fun heq => hx (Option.some.inj heq)
            rw [List.idxOf_cons_ne _ hx, List.idxOf_cons_ne _ hy] at h
            rw [List.idxOf_cons_ne _ hsome]
            exact Nat.succ_lt_succ (ih (Nat.lt_of_succ_lt_succ h))

end Composables.Distinct
