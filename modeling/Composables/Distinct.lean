/-
  Lists in which nothing stands twice, built in the order in which things first come.
-/

namespace Composables.Distinct

variable {α : Type} [DecidableEq α]

/-- Puts a thing at the end unless it is there already. -/
def push (xs : List α) (x : α) : List α := if x ∈ xs then xs else xs ++ [x]

/-- Puts things at the end, one after the other. -/
def extend (xs ys : List α) : List α := ys.foldl push xs

/-- The first occurrences of a list's elements. -/
def ofList (xs : List α) : List α := extend [] xs

/-! ## Membership -/

theorem mem_push {xs : List α} {x y : α} : y ∈ push xs x ↔ y ∈ xs ∨ y = x := by
  unfold push
  split
  · rename_i h
    constructor
    · exact .inl
    · rintro (hy | rfl)
      · exact hy
      · exact h
  · simp

theorem mem_extend {xs ys : List α} {y : α} : y ∈ extend xs ys ↔ y ∈ xs ∨ y ∈ ys := by
  induction ys generalizing xs with
  | nil => simp [extend]
  | cons z zs ih =>
    have : extend xs (z :: zs) = extend (push xs z) zs := rfl
    rw [this, ih, mem_push]
    simp [or_assoc]

theorem mem_ofList {xs : List α} {x : α} : x ∈ ofList xs ↔ x ∈ xs := by
  simp [ofList, mem_extend]

theorem nodup_push {xs : List α} (h : xs.Nodup) (x : α) : (push xs x).Nodup := by
  unfold push
  split
  · exact h
  · rename_i hx
    rw [List.nodup_append]
    refine ⟨h, by simp, ?_⟩
    rintro a ha b hb rfl
    simp only [List.mem_singleton] at hb
    exact hx (hb ▸ ha)

theorem nodup_extend {xs : List α} (h : xs.Nodup) (ys : List α) : (extend xs ys).Nodup := by
  induction ys generalizing xs with
  | nil => exact h
  | cons y ys ih => exact ih (nodup_push h y)

theorem nodup_ofList (xs : List α) : (ofList xs).Nodup := nodup_extend List.nodup_nil xs

end Composables.Distinct
