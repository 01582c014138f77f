import Composables.Collection.Gather
import Composables.Proofs.Outcome
import Mathlib.Data.List.Nodup

/-
  Keeping declarations. A list of declarations is kept exactly if those of one name agree in their
  words, and then the first of each name is kept (`foldlM_keep_eq_ok`).
-/

namespace Composables

open Declared (name source)

variable {α : Type} [Declared α] {xs ys zs : List α} {x : α}

theorem mem_names_iff {n : String} : n ∈ xs.map name ↔ (xs.find? (name · == n)).isSome := by
  rw [List.find?_isSome, List.mem_map]
  simp

/-- Where no name comes twice, looking for a name finds the one declaration of it. -/
theorem find?_eq_some_iff (h : (xs.map name).Nodup) {n : String} :
    xs.find? (name · == n) = some x ↔ x ∈ xs ∧ name x = n := by
  constructor
  · intro hfind
    exact ⟨List.mem_of_find?_eq_some hfind, by simpa using List.find?_some hfind⟩
  · rintro ⟨hx, rfl⟩
    obtain ⟨y, hy⟩ := Option.isSome_iff_exists.mp (mem_names_iff.mp (List.mem_map_of_mem hx))
    have hname : name y = name x := by simpa using List.find?_some hy
    rw [hy, List.inj_on_of_nodup_map h (List.mem_of_find?_eq_some hy) hx hname]

theorem find?_perm (h : xs.Perm ys) (hnodup : (xs.map name).Nodup) (n : String) :
    xs.find? (name · == n) = ys.find? (name · == n) := by
  refine Option.ext fun x => ?_
  rw [find?_eq_some_iff hnodup, find?_eq_some_iff ((h.map name).nodup_iff.mp hnodup), h.mem_iff]

/-! ## First declarations -/

/-- Puts a declaration at the end unless its name is taken. -/
def addNew (xs : List α) (x : α) : List α := if name x ∈ xs.map name then xs else xs ++ [x]

/-- The first declaration of each name. -/
def firsts (xs : List α) : List α := xs.foldl addNew []

/-- Looking for a name does not see what comes behind the first declaration of it. -/
theorem find?_addNew (xs : List α) (x : α) (n : String) :
    (addNew xs x).find? (name · == n) = (xs ++ [x]).find? (name · == n) := by
  unfold addNew
  split
  · rename_i h
    rw [List.find?_append]
    cases hfind : xs.find? (name · == n) with
    | some y => rfl
    | none =>
        -- `x` is not looked for, since a declaration of its name would have been found
        obtain ⟨y, hy, hyx⟩ := List.mem_map.mp h
        have hn := List.find?_eq_none.mp hfind y hy
        rw [hyx] at hn
        simp only [List.find?_cons, List.find?_nil, hn, Option.none_or]
  · rfl

theorem find?_foldl_addNew (xs ys : List α) (n : String) :
    (ys.foldl addNew xs).find? (name · == n) = (xs ++ ys).find? (name · == n) := by
  induction ys generalizing xs with
  | nil => rw [List.foldl_nil, List.append_nil]
  | cons y ys ih =>
      rw [List.foldl_cons, ih, List.find?_append, find?_addNew, ← List.find?_append,
        List.append_assoc,
        List.singleton_append]

theorem find?_firsts (xs : List α) (n : String) :
    (firsts xs).find? (name · == n) = xs.find? (name · == n) :=
  find?_foldl_addNew [] xs n

theorem sublist_foldl_addNew (xs ys : List α) : (ys.foldl addNew xs).Sublist (xs ++ ys) := by
  induction ys generalizing xs with
  | nil => rw [List.append_nil]; exact List.Sublist.refl _
  | cons y ys ih =>
      have hstep : (addNew xs y).Sublist (xs ++ [y]) := by
        unfold addNew
        split
        · exact List.sublist_append_left _ _
        · exact List.Sublist.refl _
      have h := (ih (addNew xs y)).trans (hstep.append_right ys)
      rwa [List.append_assoc] at h

theorem sublist_firsts (xs : List α) : (firsts xs).Sublist xs := sublist_foldl_addNew [] xs

theorem mem_of_mem_firsts (h : x ∈ firsts xs) : x ∈ xs := (sublist_firsts xs).subset h

theorem mem_names_firsts {n : String} : n ∈ (firsts xs).map name ↔ n ∈ xs.map name := by
  rw [mem_names_iff, find?_firsts, ← mem_names_iff]

theorem nodup_addNew (h : (xs.map name).Nodup) : ((addNew xs x).map name).Nodup := by
  unfold addNew
  split
  · exact h
  · rename_i hx
    rw [List.map_append, List.map_singleton, ← List.concat_eq_append, List.nodup_concat]
    exact ⟨hx, h⟩

theorem nodup_names_firsts (xs : List α) : ((firsts xs).map name).Nodup := by
  have run : ∀ ys : List α, (ys.map name).Nodup → ((xs.foldl addNew ys).map name).Nodup := by
    induction xs with
    | nil => exact fun _ h => h
    | cons x xs ih => exact fun ys h => ih _ (nodup_addNew h)
  exact run [] List.nodup_nil

/-- Behind declarations of other names, a list is kept as if it were alone. -/
theorem foldl_addNew_append (h : ∀ x ∈ xs, ∀ y ∈ zs, name x ≠ name y) :
    zs.foldl addNew (xs ++ ys) = xs ++ zs.foldl addNew ys := by
  induction zs generalizing ys with
  | nil => rfl
  | cons z zs ih =>
      have hz : name z ∉ xs.map name := by
        intro hm
        obtain ⟨x, hx, hxz⟩ := List.mem_map.mp hm
        exact h x hx z (by simp) hxz
      have hstep : addNew (xs ++ ys) z = xs ++ addNew ys z := by
        simp only [addNew, List.map_append, List.mem_append, hz, false_or, List.append_assoc]
        split <;> rfl
      rw [List.foldl_cons, hstep, ih (fun x hx y hy => h x hx y (by simp [hy])), List.foldl_cons]

theorem firsts_append (h : ∀ x ∈ xs, ∀ y ∈ ys, name x ≠ name y) :
    firsts (xs ++ ys) = firsts xs ++ firsts ys := by
  have hxs : ∀ x ∈ firsts xs, ∀ y ∈ ys, name x ≠ name y := fun x hx => h x (mem_of_mem_firsts hx)
  have happend : ys.foldl addNew (firsts xs ++ []) = firsts xs ++ firsts ys :=
      foldl_addNew_append hxs
  rw [List.append_nil] at happend
  rw [firsts, List.foldl_append]
  exact happend

/-- Lists that share no name are kept one by one. -/
theorem firsts_flatMap {β : Type} {g : β → List α} {bs : List β}
    (h : bs.Pairwise fun b b' => ∀ x ∈ g b, ∀ y ∈ g b', name x ≠ name y) :
    firsts (bs.flatMap g) = bs.flatMap fun b => firsts (g b) := by
  induction h with
  | nil => rfl
  | cons hb _ ih =>
      rw [List.flatMap_cons, List.flatMap_cons, firsts_append, ih]
      intro x hx y hy
      obtain ⟨b', hb', hy⟩ := List.mem_flatMap.mp hy
      exact hb b' hb' x hx y hy

/-! ## Keeping -/

/-- Declarations of one name say the same. -/
def Agree (xs : List α) : Prop := ∀ x ∈ xs, ∀ y ∈ xs, name x = name y → source x = source y

theorem Agree.mono (h : Agree ys) (hsub : xs ⊆ ys) : Agree xs :=
  fun x hx y hy => h x (hsub hx) y (hsub hy)

/-- The first declaration of a name says what the others say. -/
theorem exists_first (hagree : Agree xs) (hx : x ∈ xs) :
    ∃ y ∈ firsts xs, name y = name x ∧ source x = source y := by
  obtain ⟨y, hy, hname⟩ := List.mem_map.mp (mem_names_firsts.mpr (List.mem_map_of_mem hx))
  exact ⟨y, hy, hname, hagree x hx y (mem_of_mem_firsts hy) hname.symm⟩

theorem keep_eq_ok : keep xs x = .ok ys ↔
    (∀ first, xs.find? (name · == name x) = some first → source first = source x) ∧
      ys = addNew xs x := by
  simp only [keep, addNew, mem_names_iff]
  cases hfind : xs.find? (name · == name x) with
  | none => simp [eq_comm]
  | some first =>
      by_cases hsource : source first = source x
      · simp [hsource, eq_comm]
      · simp [hsource]

/-- A list is kept if each of its declarations agrees with the first of its name. -/
theorem foldlM_keep_eq_ok' : ys.foldlM keep xs = .ok zs ↔
    (∀ y ∈ ys, ∀ first, (xs ++ ys).find? (name · == name y) = some first →
      source first = source y) ∧
      zs = ys.foldl addNew xs := by
  induction ys generalizing xs with
  | nil => simp [pure, Except.pure, eq_comm]
  | cons y ys ih =>
      -- the first declaration of a name stays the first when one is kept
      have hrest : ∀ n, (addNew xs y ++ ys).find? (name · == n) =
          (xs ++ y :: ys).find? (name · == n) := by
        intro n
        rw [List.find?_append, find?_addNew, ← List.find?_append, List.append_assoc,
          List.singleton_append]
      have hself : ∀ first, (xs ++ y :: ys).find? (name · == name y) = some first ↔
          xs.find? (name · == name y) = some first ∨
            xs.find? (name · == name y) = none ∧ y = first := by
        intro first
        rw [List.find?_append, List.find?_cons_of_pos (by simp)]
        cases xs.find? (name · == name y) <;> simp
      rw [List.foldlM_cons, Outcome.bind_eq_ok, List.foldl_cons, List.forall_mem_cons]
      constructor
      · rintro ⟨next, hnext, h⟩
        obtain ⟨hfirst, rfl⟩ := keep_eq_ok.mp hnext
        obtain ⟨hys, rfl⟩ := ih.mp h
        refine ⟨⟨?_, ?_⟩, rfl⟩
        · intro first h
          rcases (hself first).mp h with h | ⟨_, rfl⟩
          · exact hfirst first h
          · rfl
        · intro z hz first h
          exact hys z hz first (hrest _ ▸ h)
      · rintro ⟨⟨hy, hys⟩, rfl⟩
        have hkeep : keep xs y = .ok (addNew xs y) :=
          keep_eq_ok.mpr ⟨fun first h => hy first ((hself first).mpr (.inl h)), rfl⟩
        refine ⟨addNew xs y, hkeep, ?_⟩
        refine ih.mpr ⟨?_, rfl⟩
        intro z hz first h
        exact hys z hz first (hrest _ ▸ h)

theorem foldlM_keep_eq_ok : xs.foldlM keep [] = .ok zs ↔ Agree xs ∧ zs = firsts xs := by
  rw [foldlM_keep_eq_ok', List.nil_append]
  refine and_congr_left fun _ => ?_
  constructor
  · intro h x hx y hy hxy
    obtain ⟨first, hfirst⟩ := Option.isSome_iff_exists.mp
      (List.find?_isSome.mpr ⟨x, hx, by simp⟩ : (xs.find? (name · == name x)).isSome)
    rw [← h x hx first hfirst]
    exact h y hy first (hxy ▸ hfirst)
  · intro h y hy first hfirst
    have hname : name first = name y := by simpa using List.find?_some hfirst
    exact h first (List.mem_of_find?_eq_some hfirst) y hy hname

end Composables
