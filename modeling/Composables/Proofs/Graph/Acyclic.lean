import Composables.Proofs.Sequence
import Mathlib.Data.Finset.Card
import Mathlib.Data.List.Nodup
import Mathlib.Data.List.Perm.Subperm
import Mathlib.Logic.Relation

/-
  Relations without cycles, and ways along them. A way through finitely many things holds none of
  them twice, so it is shorter than their number: this bounds how deep a depth-first run goes
  (`Way.length_lt`).
-/

namespace Composables

open Relation (TransGen ReflTransGen)

variable {α β : Type} {r : α → α → Prop}

/-- No steps lead from a thing back to it. -/
def Acyclic (r : α → α → Prop) : Prop := ∀ a, ¬ TransGen r a a

namespace Acyclic

/-- A relation has no cycle if a map takes its steps to steps of one that has none. -/
theorem of_map {s : β → β → Prop} (hs : Acyclic s) (f : α → β) (h : ∀ a b, r a b → s (f a) (f b)) :
    Acyclic r := by
  intro a ha
  exact hs (f a) (TransGen.lift f h a a ha)

/-- Steps that go down in rank make no cycle. Only steps to things with a step of their own count,
since a cycle has no others. -/
theorem of_rank (rank : α → Nat) (h : ∀ a b, r a b → (∃ c, r b c) → rank b < rank a) :
    Acyclic r := by
  have down : ∀ a b, TransGen r a b → (∃ c, r b c) → rank b < rank a := by
    intro a b hab
    induction hab with
    | single hab => exact h _ _ hab
    | tail hab hbc ih =>
        intro hc
        have := ih ⟨_, hbc⟩
        have := h _ _ hbc hc
        omega
  intro a ha
  obtain ⟨b, hab, _⟩ := TransGen.head'_iff.mp ha
  exact Nat.lt_irrefl _ (down a a ha ⟨b, hab⟩)

/-- A rank for finitely many things: how many of them steps lead to. -/
theorem exists_rank (hr : Acyclic r) (xs : List α) :
    ∃ rank : α → Nat, ∀ a, ∀ b ∈ xs, r a b → rank b < rank a := by
  classical
  refine ⟨fun a => (xs.toFinset.filter (TransGen r a)).card, ?_⟩
  intro a b hb hab
  refine Finset.card_lt_card (Finset.ssubset_iff_of_subset ?_ |>.mpr ⟨b, ?_, ?_⟩)
  · intro c hc
    rw [Finset.mem_filter] at hc ⊢
    exact ⟨hc.1, .head hab hc.2⟩
  · rw [Finset.mem_filter, List.mem_toFinset]
    exact ⟨hb, .single hab⟩
  · rw [Finset.mem_filter]
    exact fun hself => hr b hself.2

/-- Finitely many things can be put in an order in which each stands behind those it has a step
to. -/
theorem exists_order (hr : Acyclic r) (xs : List α) :
    ∃ order : List α, order.Perm xs ∧
      Supplied (fun front a => ∀ b ∈ xs, r a b → b ∈ front) order := by
  obtain ⟨rank, hrank⟩ := hr.exists_rank xs
  let le (a b : α) : Bool := rank a ≤ rank b
  have htrans : ∀ a b c, le a b = true → le b c = true → le a c = true := by
    intro a b c hab hbc
    exact decide_eq_true ((of_decide_eq_true hab).trans (of_decide_eq_true hbc))
  have htotal : ∀ a b, (le a b || le b a) = true := by
    intro a b
    simpa [le] using Nat.le_total (rank a) (rank b)
  have hsorted : (xs.mergeSort le).Pairwise fun a b => rank a ≤ rank b :=
    (List.pairwise_mergeSort htrans htotal xs).imp of_decide_eq_true
  refine ⟨xs.mergeSort le, List.mergeSort_perm xs le, ?_⟩
  intro front a back hsplit b hb hab
  have hlt := hrank a b hb hab
  have hmem : b ∈ front ++ a :: back := hsplit ▸ (List.mergeSort_perm xs le).mem_iff.mpr hb
  rw [hsplit] at hsorted
  rcases List.mem_append.mp hmem with hfront | hrest
  · exact hfront
  · -- from there on nothing has a lower rank
    rcases List.mem_cons.mp hrest with rfl | hback
    · omega
    · have := List.rel_of_pairwise_cons (List.pairwise_append.mp hsorted).2.1 hback
      omega

end Acyclic

/-! ## Ways -/

/-- The things passed on a way to `a`: each leads on to it, and none is passed twice. -/
structure Way (r : α → α → Prop) (path : List α) (a : α) : Prop where
  nodup : path.Nodup
  leads : ∀ b ∈ path, TransGen r b a

namespace Way

variable {path : List α} {a b : α}

theorem nil : Way r [] a := ⟨List.nodup_nil, by simp⟩

theorem not_mem (hr : Acyclic r) (h : Way r path a) : a ∉ path := by
  intro ha
  exact hr a (h.leads a ha)

theorem nodup_end (hr : Acyclic r) (h : Way r path a) : (path ++ [a]).Nodup := by
  rw [← List.concat_eq_append, List.nodup_concat]
  exact ⟨h.not_mem hr, h.nodup⟩

theorem step (hr : Acyclic r) (h : Way r path a) (hab : r a b) : Way r (path ++ [a]) b := by
  refine ⟨h.nodup_end hr, ?_⟩
  intro c hc
  rcases List.mem_append.mp hc with hc | hc
  · exact (h.leads c hc).tail hab
  · rw [List.mem_singleton] at hc
    rw [hc]
    exact .single hab

/-- A way that stays among given things is shorter than their list. -/
theorem length_lt (all : List α) (hr : Acyclic r) (hall : ∀ b c, r b c → b ∈ all) (h : Way r path a)
    (ha : a ∈ all) : path.length < all.length := by
  have hsub : path ++ [a] ⊆ all := by
    intro b hb
    rcases List.mem_append.mp hb with hb | hb
    · obtain ⟨c, hbc, _⟩ := TransGen.head'_iff.mp (h.leads b hb)
      exact hall b c hbc
    · rw [List.mem_singleton] at hb
      exact hb ▸ ha
  have := ((h.nodup_end hr).subperm hsub).length_le
  simp at this
  omega

end Way

end Composables
