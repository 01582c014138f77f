import Composables.Proofs.Collection.Gather

/-
  Fragments reached by spreads. If no way along spreads is a cycle and each dependency stands for a
  fragment, what is reached from names is listed completely, without repetition, and with each
  fragment behind those it spreads (`lists_reachable`).
-/

namespace Composables.Collection

open Relation (TransGen ReflTransGen)

variable {c : Collection} {found found' : List Fragment} {f : Fragment} {n : String}
  {ns : List String}

/-! ## Names and what they stand for -/

theorem name_of_fragment? (h : c.fragment? n = some f) : f.name = n := by
  unfold fragment? at h
  rcases Option.or_eq_some_iff.mp h with h | ⟨_, h⟩
  · simpa using List.find?_some h
  · obtain ⟨e, he, rfl⟩ := Option.map_eq_some_iff.mp h
    simpa [ImportedFragment.name] using List.find?_some he

theorem mem_of_fragment? (h : c.fragment? n = some f) :
    f ∈ c.fragments ∨ ∃ e ∈ c.imported, e.fragment = f := by
  unfold fragment? at h
  rcases Option.or_eq_some_iff.mp h with h | ⟨_, h⟩
  · exact .inl (List.mem_of_find?_eq_some h)
  · obtain ⟨e, he, rfl⟩ := Option.map_eq_some_iff.mp h
    exact .inr ⟨e, List.mem_of_find?_eq_some he, rfl⟩

theorem fragment?_isSome : (c.fragment? n).isSome ↔
    n ∈ c.fragments.map Fragment.name ∨ n ∈ c.imported.map ImportedFragment.name := by
  simp [fragment?, Option.isSome_or]

/-- A fragment of the collection is what its name stands for. -/
theorem fragment?_of_mem (hnodup : (c.fragments.map Fragment.name).Nodup) (hf : f ∈ c.fragments) :
    c.fragment? f.name = some f := by
  rw [fragment?, Option.or_eq_some_iff]
  exact .inl ((find?_eq_some_iff hnodup).mpr ⟨hf, rfl⟩)

/-- What the first name stands for spreads the second. -/
def Spreads (c : Collection) (a b : String) : Prop :=
  ∃ f, c.fragment? a = some f ∧ b ∈ f.dependencies

/-- Fragments that spread only names of lower rank make no cycle. -/
theorem acyclic_of_rank (rank : String → Nat)
    (h : ∀ f ∈ c.fragments ++ c.imported.map (·.fragment), ∀ d ∈ f.dependencies,
      rank d < rank f.name) :
    Acyclic c.Spreads := by
  refine Acyclic.of_rank rank ?_
  rintro a b ⟨f, hf, hb⟩ _
  obtain rfl := name_of_fragment? hf
  refine h f (List.mem_append.mpr ((mem_of_fragment? hf).imp_right ?_)) b hb
  rintro ⟨e, he, rfl⟩
  exact List.mem_map_of_mem he

/-- Each name that is spread stands for a fragment. -/
def Resolves (c : Collection) : Prop := ∀ a b, c.Spreads a b → (c.fragment? b).isSome

/-- The fragments reached from names: each once, and behind those it spreads. -/
structure Lists (c : Collection) (names : List String) (fs : List Fragment) : Prop where
  nodup : (fs.map Fragment.name).Nodup
  arranged : Fragment.Arranged [] fs
  mem_iff : ∀ f, f ∈ fs ↔ c.fragment? f.name = some f ∧ ∃ n ∈ names, ReflTransGen c.Spreads n f.name

/-! ## A run from one name -/

/-- Lists of what names stand for, with each fragment behind those it spreads. -/
structure Sound (c : Collection) (found : List Fragment) : Prop where
  nodup : (found.map Fragment.name).Nodup
  arranged : Fragment.Arranged [] found
  resolved : ∀ f ∈ found, c.fragment? f.name = some f

theorem Sound.snoc (h : Sound c found) (hf : c.fragment? f.name = some f)
    (hnew : f.name ∉ found.map Fragment.name)
    (hdeps : ∀ d ∈ f.dependencies, d ∈ found.map Fragment.name) : Sound c (found ++ [f]) := by
  refine ⟨?_, h.arranged.snoc fun d hd => .inl (hdeps d hd), ?_⟩
  · rw [List.map_append, List.map_singleton, ← List.concat_eq_append, List.nodup_concat]
    exact ⟨hnew, h.nodup⟩
  · intro g hg
    rcases List.mem_append.mp hg with hg | hg
    · exact h.resolved g hg
    · rw [List.mem_singleton] at hg
      exact hg ▸ hf

/-- What following names makes of a list: it adds to the end, only what they reach, and all of
them. -/
structure Extends (c : Collection) (ns : List String) (found found' : List Fragment) : Prop where
  sound : Sound c found'
  front : found <+: found'
  reached : ∀ g ∈ found', g ∈ found ∨ ∃ n ∈ ns, ReflTransGen c.Spreads n g.name
  complete : ∀ n ∈ ns, n ∈ found'.map Fragment.name

/-- Following several names does what following each of them does. -/
theorem extends_of_foldl {step : List Fragment → String → List Fragment} (hs : Sound c found)
    (hstep : ∀ n ∈ ns, ∀ found, Sound c found → Extends c [n] found (step found n)) :
    Extends c ns found (ns.foldl step found) := by
  induction ns generalizing found with
  | nil => exact ⟨hs, List.prefix_refl _, fun _ hg => .inl hg, by simp⟩
  | cons n ns ih =>
      have h := hstep n (by simp) found hs
      have h' := ih h.sound fun m hm => hstep m (by simp [hm])
      refine ⟨h'.sound, h.front.trans h'.front, ?_, ?_⟩
      · intro g hg
        rcases h'.reached g hg with hg | ⟨m, hm, hmg⟩
        · refine (h.reached g hg).imp_right ?_
          rintro ⟨m, hm, hmg⟩
          rw [List.mem_singleton] at hm
          exact ⟨m, by simp [hm], hmg⟩
        · exact .inr ⟨m, by simp [hm], hmg⟩
      · intro m hm
        rcases List.mem_cons.mp hm with rfl | hm
        · exact (h'.front.map Fragment.name).subset (h.complete m (by simp))
        · exact h'.complete m hm

theorem reach_succ (c : Collection) (room : Nat) (found : List Fragment) (n : String) :
    c.reach (room + 1) found n =
      if found.any fun f => f.name == n then found
      else
        match c.fragment? n with
        | none => found
        | some f =>
          if (f.dependencies.foldl (c.reach room) found).any fun g => g.name == n then
            f.dependencies.foldl (c.reach room) found
          else f.dependencies.foldl (c.reach room) found ++ [f] := rfl

theorem any_name : (found.any fun f => f.name == n) = true ↔ n ∈ found.map Fragment.name := by simp

/-- Putting a fragment behind what its dependencies reach is following its name. -/
theorem Extends.close (hf : c.fragment? n = some f) (h : Extends c f.dependencies found found') :
    Extends c [n] found (if found'.any fun g => g.name == n then found' else found' ++ [f]) := by
  have hname := name_of_fragment? hf
  have hreached : ∀ g ∈ found', g ∈ found ∨ ∃ m ∈ [n], ReflTransGen c.Spreads m g.name := by
    intro g hg
    refine (h.reached g hg).imp_right ?_
    rintro ⟨d, hd, hdg⟩
    exact ⟨n, by simp, hdg.head ⟨f, hf, hd⟩⟩
  split
  · rename_i hany
    exact ⟨h.sound, h.front, hreached, by simpa using any_name.mp hany⟩
  · rename_i hany
    rw [any_name, ← hname] at hany
    have hfront : found <+: found' ++ [f] := h.front.trans (List.prefix_append _ _)
    refine ⟨h.sound.snoc (hname.symm ▸ hf) hany h.complete, hfront, ?_, by simp [hname]⟩
    intro g hg
    rcases List.mem_append.mp hg with hg | hg
    · exact hreached g hg
    · rw [List.mem_singleton] at hg
      exact .inr ⟨n, by simp, by rw [hg, hname]⟩

/-- The names that a collection knows. -/
def names (c : Collection) : List String :=
  c.fragments.map Fragment.name ++ c.imported.map ImportedFragment.name

/-- Following a name adds what it reaches. The way to it cannot grow to the number of fragments, so
its room is enough. -/
theorem extends_of_reach {path : List String} {room : Nat} (hacyclic : Acyclic c.Spreads)
    (hresolves : c.Resolves) (hn : (c.fragment? n).isSome) (hway : Way c.Spreads path n)
    (hroom : c.names.length < path.length + room) (hs : Sound c found) :
    Extends c [n] found (c.reach room found n) := by
  induction room generalizing path found n with
  | zero =>
      have hlt := hway.length_lt c.names hacyclic
        (fun a b ⟨f, hf, _⟩ => List.mem_append.mpr (fragment?_isSome.mp (hf ▸ rfl)))
        (List.mem_append.mpr (fragment?_isSome.mp hn))
      omega
  | succ room ih =>
      rw [reach_succ]
      split
      · rename_i hany
        exact ⟨hs, List.prefix_refl _, fun _ hg => .inl hg, by simpa using any_name.mp hany⟩
      · obtain ⟨f, hf⟩ := Option.isSome_iff_exists.mp hn
        rw [hf]
        refine Extends.close hf (extends_of_foldl hs ?_)
        intro d hd found hs
        refine ih (hresolves n d ⟨f, hf, hd⟩) (hway.step hacyclic ⟨f, hf, hd⟩) ?_ hs
        rw [List.length_append, List.length_singleton]
        omega

/-! ## All that names reach -/

/-- A list that is closed under spreads holds whatever is reached from it. -/
theorem Sound.mem_of_reached {m : String} (hs : Sound c found) (hn : n ∈ found.map Fragment.name)
    (h : ReflTransGen c.Spreads n m) : m ∈ found.map Fragment.name := by
  induction h with
  | refl => exact hn
  | tail _ hstep ih =>
      obtain ⟨f, hf, hd⟩ := hstep
      obtain ⟨g, hg, hname⟩ := List.mem_map.mp ih
      obtain rfl : g = f := Option.some.inj ((hs.resolved g hg).symm.trans (hname ▸ hf))
      exact (hs.arranged.mem hg hd).resolve_right List.not_mem_nil

theorem lists_reachable (hacyclic : Acyclic c.Spreads) (hresolves : c.Resolves)
    (hns : ∀ n ∈ ns, (c.fragment? n).isSome) : c.Lists ns (c.reachable ns) := by
  have hstep : ∀ n ∈ ns, ∀ found, Sound c found →
      Extends c [n] found (c.reach (c.fragments.length + c.imported.length + 1) found n) := by
    intro n hn found hs
    exact extends_of_reach hacyclic hresolves (hns n hn) .nil (by simp [names]) hs
  have h : Extends c ns [] (c.reachable ns) :=
    extends_of_foldl ⟨List.nodup_nil, supplied_nil, by simp⟩ hstep
  refine ⟨h.sound.nodup, h.sound.arranged, ?_⟩
  intro f
  constructor
  · intro hf
    exact ⟨h.sound.resolved f hf, (h.reached f hf).resolve_left List.not_mem_nil⟩
  · rintro ⟨hresolved, n, hn, hreach⟩
    obtain ⟨g, hg, hname⟩ := List.mem_map.mp (h.sound.mem_of_reached (h.complete n hn) hreach)
    obtain rfl : g = f := Option.some.inj ((h.sound.resolved g hg).symm.trans (hname ▸ hresolved))
    exact hg

/-! ## Collections of the same fragments -/

/-- The fragments that names may stand for. -/
def all (c : Collection) : List Fragment := c.fragments ++ c.imported.map (·.fragment)

theorem all_eq_fragments (h : c.imported = []) : c.all = c.fragments := by
  rw [all, h, List.map_nil, List.append_nil]

theorem fragment?_eq_find? (c : Collection) (n : String) :
    c.fragment? n = c.all.find? (Declared.name · == n) := by
  rw [all, List.find?_append, List.find?_map]
  rfl

/-- Following names only looks at what they stand for. -/
theorem reach_congr {c' : Collection} (h : c.fragment? = c'.fragment?) : c.reach = c'.reach := by
  funext room
  induction room with
  | zero => rfl
  | succ room ih =>
      funext found n
      rw [reach_succ, reach_succ, ih, h]

/-- Of the same fragments, own or imported, the same are reached. -/
theorem reachable_perm {c' : Collection} (h : c.all.Perm c'.all)
    (hnodup : (c.all.map Fragment.name).Nodup) :
    c.reachable = c'.reachable := by
  have hresolve : c.fragment? = c'.fragment? := by
    funext n
    rw [fragment?_eq_find?, fragment?_eq_find?]
    exact find?_perm h hnodup n
  have hroom : c.fragments.length + c.imported.length =
      c'.fragments.length + c'.imported.length := by
    simpa [all] using h.length_eq
  funext names
  rw [reachable, reachable, reach_congr hresolve, hroom]

end Composables.Collection
