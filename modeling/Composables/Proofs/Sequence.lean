import Mathlib.Data.List.Basic
import Mathlib.Data.List.Induction

/-
  Sequences in which each thing has what it needs in front of it: fragments behind those they
  spread, blocks behind the constants they use.
-/

namespace Composables

variable {α β : Type} {needs needs' : List α → α → Prop} {xs ys : List α} {x : α}

/-- Each element of a list finds what it needs in those in front of it. -/
def Supplied (needs : List α → α → Prop) (xs : List α) : Prop :=
  ∀ front x back, xs = front ++ x :: back → needs front x

theorem supplied_nil : Supplied needs [] := by
  intro front x back h
  simp at h

/-- Behind a list, the elements of another one find it in front of them. -/
theorem supplied_append : Supplied needs (xs ++ ys) ↔
    Supplied needs xs ∧ Supplied (fun front => needs (xs ++ front)) ys := by
  constructor
  · intro h
    constructor
    · rintro front x back rfl
      exact h front x (back ++ ys) (by simp)
    · rintro front x back rfl
      exact h (xs ++ front) x back (by simp)
  · rintro ⟨hxs, hys⟩ front x back h
    rcases List.append_eq_append_iff.mp h with ⟨between, rfl, hback⟩ | ⟨between, rfl, hback⟩
    · exact hys between x back hback
    · cases between with
      | nil =>
          have hx := hys [] x back hback.symm
          rwa [List.append_nil, List.append_nil] at hx
      | cons y between =>
          obtain ⟨rfl, rfl⟩ := List.cons_eq_cons.mp hback
          exact hxs front x between rfl

theorem supplied_singleton : Supplied needs [x] ↔ needs [] x := by
  constructor
  · intro h
    exact h [] x [] rfl
  · intro h front y back hy
    cases front with
    | nil =>
        obtain ⟨rfl, rfl⟩ := List.cons_eq_cons.mp hy
        exact h
    | cons z front => simp at hy

theorem supplied_map {f : β → α} {zs : List β} :
    Supplied needs (zs.map f) ↔ Supplied (fun front z => needs (front.map f) (f z)) zs := by
  constructor
  · rintro h front z back rfl
    exact h (front.map f) (f z) (back.map f) (by simp)
  · intro h front x back hx
    obtain ⟨before, rest, rfl, rfl, hrest⟩ := List.map_eq_append_iff.mp hx
    obtain ⟨z, after, rfl, rfl, rfl⟩ := List.map_eq_cons_iff.mp hrest
    exact h before z after rfl

theorem Supplied.imp (h : Supplied needs xs)
    (himp : ∀ front, ∀ x ∈ xs, needs front x → needs' front x) :
    Supplied needs' xs := by
  rintro front x back rfl
  exact himp front x (by simp) (h front x back rfl)

theorem supplied_of_forall (h : ∀ front, ∀ x ∈ xs, needs front x) : Supplied needs xs := by
  rintro front x back rfl
  exact h front x (by simp)

/-- What passes from the elements in front of an element to that element holds of all. -/
theorem Supplied.forall {p : α → Prop} (h : Supplied needs xs)
    (hstep : ∀ front, front ⊆ xs → ∀ x ∈ xs, needs front x → (∀ y ∈ front, p y) → p x) :
    ∀ x ∈ xs, p x := by
  have hfronts : ∀ front back, xs = front ++ back → ∀ y ∈ front, p y := by
    intro front
    induction front using List.reverseRecOn with
    | nil => simp
    | append_singleton front x ih =>
        intro back hxs
        rw [List.append_assoc, List.singleton_append] at hxs
        have hsub : front ⊆ xs := hxs ▸ List.subset_append_left front (x :: back)
        have hfront := ih (x :: back) hxs
        have hx : p x := hstep front hsub x (by simp [hxs]) (h front x back hxs) hfront
        intro y hy
        rcases List.mem_append.mp hy with hy | hy
        · exact hfront y hy
        · rw [List.mem_singleton.mp hy]
          exact hx
  exact hfronts xs [] (List.append_nil xs).symm

/-- What an element needs in front of it, told by positions. -/
theorem Supplied.take {i : Nat} (h : Supplied needs xs) (hx : xs[i]? = some x) :
    needs (xs.take i) x := by
  obtain ⟨hi, rfl⟩ := List.getElem?_eq_some_iff.mp hx
  refine h (xs.take i) xs[i] (xs.drop (i + 1)) ?_
  rw [List.getElem_cons_drop, List.take_append_drop]

/-! ## Elements in front of others -/

/-- Where nothing comes twice, what stands in front of an element of the first part is in that
part. -/
theorem mem_left_of_sublist {y : α} (hnodup : (xs ++ ys).Nodup) (h : [x, y].Sublist (xs ++ ys))
    (hy : y ∈ xs) : x ∈ xs := by
  obtain ⟨left, right, hsplit, hleft, hright⟩ := List.sublist_append_iff.mp h
  cases left with
  | nil =>
      rw [List.nil_append] at hsplit
      have hy' : y ∈ ys := hright.subset (hsplit ▸ by simp)
      exact absurd rfl ((List.nodup_append.mp hnodup).2.2 y hy y hy')
  | cons z left =>
      obtain rfl := (List.cons.inj hsplit).1
      exact hleft.subset List.mem_cons_self

/-- Of two elements one stands in front of the other. -/
theorem sublist_or_sublist {y : α} (hx : x ∈ xs) (hy : y ∈ xs) (hne : x ≠ y) :
    [x, y].Sublist xs ∨ [y, x].Sublist xs := by
  obtain ⟨front, back, rfl⟩ := List.append_of_mem hx
  rcases List.mem_append.mp hy with hy | hy
  · exact .inr ((List.singleton_sublist.mpr hy).append
      (List.singleton_sublist.mpr List.mem_cons_self))
  · have hback := (List.mem_cons.mp hy).resolve_left hne.symm
    exact .inl ((List.cons_sublist_cons.mpr (List.singleton_sublist.mpr hback)).trans
      (List.sublist_append_right _ _))

end Composables
