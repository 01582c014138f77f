import Composables.Fragment.Order
import Composables.Proofs.Graph.Acyclic
import Composables.Proofs.Outcome
import Composables.Proofs.Sequence

/-
  Ordering fragments. An order that is found holds each fragment once, behind all that it spreads
  (`perm_of_order`, `arranged_of_order`); one is found if no way along spreads is a cycle and each
  name that is spread stands for a fragment or is known (`order_ok`).
-/

namespace Composables.Fragment

open Relation (TransGen ReflTransGen)

/-- One of the fragments has the first name and spreads the second. -/
def Spreads (fs : List Fragment) (a b : String) : Prop := ∃ f ∈ fs, f.name = a ∧ b ∈ f.dependencies

/-- Each fragment stands behind those it spreads, as far as they are not known from elsewhere. -/
def Arranged (known : List String) (fs : List Fragment) : Prop :=
  Supplied (fun front f => ∀ d ∈ f.dependencies, d ∈ front.map name ∨ d ∈ known) fs

variable {fs : List Fragment} {known : List String} {room : Nat} {path placed placed' : List Nat}
  {i j : Nat} {d : String}

/-! ## Arranged fragments -/

theorem Arranged.snoc {f : Fragment} (h : Arranged known fs)
    (hf : ∀ d ∈ f.dependencies, d ∈ fs.map name ∨ d ∈ known) : Arranged known (fs ++ [f]) := by
  refine supplied_append.mpr ⟨h, supplied_singleton.mpr ?_⟩
  rwa [List.append_nil]

/-- What an arranged fragment spreads is the name of one of them or known. -/
theorem Arranged.mem {f : Fragment} (h : Arranged known fs) (hf : f ∈ fs)
    (hd : d ∈ f.dependencies) :
    d ∈ fs.map name ∨ d ∈ known := by
  obtain ⟨front, back, rfl⟩ := List.append_of_mem hf
  refine (h front f back rfl d hd).imp_left fun hfront => ?_
  rw [List.map_append]
  exact List.mem_append_left _ hfront

/-- Fragments that are arranged among themselves make no cycle. -/
theorem Arranged.acyclic (h : Arranged known fs) (hnodup : (fs.map name).Nodup)
    (hknown : ∀ d ∈ known, d ∉ fs.map name) : Acyclic (Spreads fs) := by
  refine Acyclic.of_rank (fun a => (fs.map name).idxOf a) ?_
  rintro a b ⟨f, hf, rfl, hb⟩ ⟨c, g, hg, rfl, _⟩
  obtain ⟨front, back, rfl⟩ := List.append_of_mem hf
  have hmem : g.name ∈ (front ++ f :: back).map name := List.mem_map_of_mem hg
  have hfront : g.name ∈ front.map name := (h front f back rfl g.name hb).resolve_right fun hk =>
      hknown _ hk hmem
  rw [List.map_append, List.map_cons] at hnodup ⊢
  have hself : f.name ∉ front.map name := fun hm =>
    (List.nodup_append.mp hnodup).2.2 f.name hm f.name (by simp) rfl
  have hlt := List.idxOf_lt_length_of_mem hfront
  rw [List.idxOf_append_of_mem hfront, List.idxOf_append_of_notMem hself]
  omega

/-! ## Looking up names -/

theorem indexOf?_eq_some (h : indexOf? fs d = some j) : ∃ f, fs[j]? = some f ∧ f.name = d := by
  obtain ⟨hj, hname, _⟩ := List.findIdx?_eq_some_iff_getElem.mp h
  exact ⟨fs[j], List.getElem?_eq_getElem hj, by simpa using hname⟩

theorem indexOf?_eq_none : indexOf? fs d = none ↔ d ∉ fs.map name := by
  rw [indexOf?, List.findIdx?_eq_none_iff]
  simp

/-! ## A visit -/

/-- Goes on to what a fragment at a location spreads. -/
def follow (fs : List Fragment) (known : List String) (room : Nat) (path : List Nat)
    (location : Location) (placed : List Nat) (d : String) : Except Error (List Nat) :=
  match indexOf? fs d with
  | some j => visit fs known room path placed j
  | none => if d ∈ known then .ok placed else .error (.unknownFragment d location)

theorem visit_succ : visit fs known (room + 1) path placed i =
    if i ∈ placed then .ok placed
    else if i ∈ path then .error (.circularFragment (namesAt fs (path.dropWhile (· ≠ i) ++ [i])))
    else
      match fs[i]? with
      | none => .ok placed
      | some f =>
        f.dependencies.foldlM (follow fs known room (path ++ [i]) f.location) placed >>=
          fun below =>
          .ok (below ++ [i]) := rfl

/-- Whether a fragment that spreads the name may come next. -/
def Ready (fs : List Fragment) (known : List String) (placed : List Nat) (d : String) : Prop :=
  match indexOf? fs d with
  | some j => j ∈ placed
  | none => d ∈ known

theorem Ready.mono (h : Ready fs known placed d) (hsub : placed ⊆ placed') :
    Ready fs known placed' d := by
  unfold Ready at *
  split
  · rename_i j hj
    rw [hj] at h
    exact hsub h
  · rename_i hd
    rw [hd] at h
    exact h

/-- Orders in which each fragment was ready when its turn came, and had only one. -/
inductive Sound (fs : List Fragment) (known : List String) : List Nat → Prop
  | nil : Sound fs known []
  | snoc {placed : List Nat} {i : Nat} {f : Fragment} (sound : Sound fs known placed)
      (fresh : i ∉ placed) (found : fs[i]? = some f)
      (ready : ∀ d ∈ f.dependencies, Ready fs known placed d) :
      Sound fs known (placed ++ [i])

/-- What a visit makes of an order: it adds to the end, and nothing that lies on its path. -/
structure Grows (fs : List Fragment) (known : List String) (path placed placed' : List Nat) :
    Prop where
  sound : Sound fs known placed'
  front : placed <+: placed'
  fresh : ∀ j ∈ placed', j ∈ placed ∨ j ∉ path

theorem Grows.refl (h : Sound fs known placed) : Grows fs known path placed placed :=
  ⟨h, List.prefix_refl _, fun _ hj => .inl hj⟩

theorem Grows.trans {placed'' : List Nat} (h : Grows fs known path placed placed')
    (h' : Grows fs known path placed' placed'') : Grows fs known path placed placed'' := by
  refine ⟨h'.sound, h.front.trans h'.front, ?_⟩
  intro j hj
  rcases h'.fresh j hj with hj | hj
  · exact h.fresh j hj
  · exact .inr hj

/-- Behind all that it spreads, the fragment that is visited is put itself. -/
theorem Grows.close {f : Fragment} {below : List Nat}
    (h : Grows fs known (path ++ [i]) placed below) (horder : i ∉ placed) (hpath : i ∉ path)
    (hf : fs[i]? = some f) (hready : ∀ d ∈ f.dependencies, Ready fs known below d) :
    Grows fs known path placed (below ++ [i]) := by
  have hi : i ∉ below := fun hm => (h.fresh i hm).elim horder fun hn => hn (by simp)
  refine ⟨h.sound.snoc hi hf hready, h.front.trans (List.prefix_append _ _), ?_⟩
  intro j hj
  rcases List.mem_append.mp hj with hj | hj
  · refine (h.fresh j hj).imp_right fun hn hp => hn ?_
    exact List.mem_append_left _ hp
  · rw [List.mem_singleton] at hj
    exact .inr (hj ▸ hpath)

/-- Following a name does what the visit it leads to does. -/
theorem grows_of_follow {location : Location}
    (hvisit : ∀ {placed placed' : List Nat} {j : Nat} {f : Fragment}, fs[j]? = some f →
      Sound fs known placed → visit fs known room path placed j = .ok placed' →
      Grows fs known path placed placed' ∧ j ∈ placed') (hs : Sound fs known placed)
    (h : follow fs known room path location placed d = .ok placed') :
    Grows fs known path placed placed' ∧ Ready fs known placed' d := by
  unfold follow at h
  unfold Ready
  split at h
  · rename_i j hj
    obtain ⟨f, hf, _⟩ := indexOf?_eq_some hj
    exact hvisit hf hs h
  · split at h
    · rename_i hknown
      obtain rfl : placed = placed' := Except.ok.inj h
      exact ⟨.refl hs, hknown⟩
    · cases h

/-- A run over several names does what its steps do. -/
theorem grows_of_foldlM {location : Location} {ds : List String}
    (hstep : ∀ d placed placed', Sound fs known placed →
      follow fs known room path location placed d = .ok placed' →
      Grows fs known path placed placed' ∧ Ready fs known placed' d) (hs : Sound fs known placed)
    (h : ds.foldlM (follow fs known room path location) placed = .ok placed') :
    Grows fs known path placed placed' ∧ ∀ d ∈ ds, Ready fs known placed' d := by
  induction ds generalizing placed with
  | nil =>
      obtain rfl : placed = placed' := Except.ok.inj h
      exact ⟨.refl hs, by simp⟩
  | cons d ds ih =>
      rw [List.foldlM_cons, Outcome.bind_eq_ok] at h
      obtain ⟨next, hnext, hrest⟩ := h
      obtain ⟨hgrows, hd⟩ := hstep d placed next hs hnext
      obtain ⟨hgrows', hds⟩ := ih hgrows.sound hrest
      refine ⟨hgrows.trans hgrows', ?_⟩
      intro e he
      rcases List.mem_cons.mp he with rfl | he
      · exact hd.mono hgrows'.front.subset
      · exact hds e he

/-- A visit that succeeds keeps the order sound, and the fragment is in it afterwards. -/
theorem grows_of_visit {f : Fragment} (hf : fs[i]? = some f) (hs : Sound fs known placed)
    (h : visit fs known room path placed i = .ok placed') :
    Grows fs known path placed placed' ∧ i ∈ placed' := by
  induction room generalizing path placed placed' i f with
  | zero => cases h
  | succ room ih =>
      rw [visit_succ] at h
      split at h
      · rename_i hi
        obtain rfl : placed = placed' := Except.ok.inj h
        exact ⟨.refl hs, hi⟩
      · rename_i horder
        split at h
        · cases h
        · rename_i hpath
          rw [hf] at h
          obtain ⟨below, hbelow, hlast⟩ := Outcome.bind_eq_ok.mp h
          obtain rfl : below ++ [i] = placed' := Except.ok.inj hlast
          obtain ⟨hgrows, hready⟩ := grows_of_foldlM (fun d _ _ => grows_of_follow ih) hs hbelow
          exact ⟨hgrows.close horder hpath hf hready, by simp⟩

/-! ## A whole run -/

/-- All visits together keep the order sound, and leave no fragment out. -/
theorem sound_of_visitAll {indices : List Nat} (h : visitAll fs known = .ok indices) :
    Sound fs known indices ∧ ∀ i < fs.length, i ∈ indices := by
  have run : ∀ (is placed : List Nat), (∀ i ∈ is, i < fs.length) → Sound fs known placed →
      is.foldlM (visit fs known (fs.length + 1) []) placed = .ok indices →
      Grows fs known [] placed indices ∧ ∀ i ∈ is, i ∈ indices := by
    intro is
    induction is with
    | nil =>
        intro placed _ hs h
        obtain rfl : placed = indices := Except.ok.inj h
        exact ⟨.refl hs, by simp⟩
    | cons i is ih =>
        intro placed his hs h
        rw [List.foldlM_cons, Outcome.bind_eq_ok] at h
        obtain ⟨next, hnext, hrest⟩ := h
        have hf := List.getElem?_eq_getElem (his i (by simp))
        obtain ⟨hgrows, hi⟩ := grows_of_visit hf hs hnext
        obtain ⟨hgrows', hall⟩ := ih next (fun j hj => his j (by simp [hj])) hgrows.sound hrest
        refine ⟨hgrows.trans hgrows', ?_⟩
        intro j hj
        rcases List.mem_cons.mp hj with rfl | hj
        · exact hgrows'.front.subset hi
        · exact hall j hj
  obtain ⟨hgrows, hall⟩ := run _ [] (fun i hi => List.mem_range.mp hi) .nil h
  exact ⟨hgrows.sound, fun i hi => hall i (List.mem_range.mpr hi)⟩

theorem Sound.nodup (h : Sound fs known placed) : placed.Nodup := by
  induction h with
  | nil => exact List.nodup_nil
  | snoc _ fresh _ _ ih =>
      rw [← List.concat_eq_append, List.nodup_concat]
      exact ⟨fresh, ih⟩

theorem Sound.lt_length (h : Sound fs known placed) : ∀ i ∈ placed, i < fs.length := by
  induction h with
  | nil => simp
  | snoc _ _ found _ ih =>
      intro i hi
      rcases List.mem_append.mp hi with hi | hi
      · exact ih i hi
      · rw [List.mem_singleton] at hi
        exact hi ▸ (List.getElem?_eq_some_iff.mp found).1

/-- In a sound order each fragment stands behind those it spreads, and names that stand for no
fragment are known. -/
theorem Sound.supplied (h : Sound fs known placed) :
    Supplied (fun front f => ∀ d ∈ f.dependencies,
      (d ∈ fs.map name → d ∈ front.map name) ∧ (d ∉ fs.map name → d ∈ known))
      (placed.filterMap fun i => fs[i]?) := by
  induction h with
  | nil => exact supplied_nil
  | snoc _ _ found ready ih =>
      rename_i placed i f _ _
      rw [List.filterMap_append, List.filterMap_cons_some found, List.filterMap_nil]
      refine supplied_append.mpr ⟨ih, supplied_singleton.mpr ?_⟩
      rw [List.append_nil]
      intro d hd
      have hready := ready d hd
      unfold Ready at hready
      split at hready
      · rename_i j hj
        obtain ⟨g, hg, rfl⟩ := indexOf?_eq_some hj
        have hplaced : g.name ∈ (placed.filterMap fun i => fs[i]?).map name :=
          List.mem_map_of_mem (List.mem_filterMap.mpr ⟨j, hready, hg⟩)
        exact ⟨fun _ => hplaced,
          fun hn => absurd (List.mem_map_of_mem (List.mem_of_getElem? hg)) hn⟩
      · rename_i hnone
        exact ⟨fun hmem => absurd hmem (indexOf?_eq_none.mp hnone), fun _ => hready⟩

/-- The fragments of a sound order are arranged. -/
theorem Sound.arranged (h : Sound fs known placed) :
    Arranged known (placed.filterMap fun i => fs[i]?) := by
  refine h.supplied.imp fun front f _ hf d hd => ?_
  by_cases hmem : d ∈ fs.map name
  · exact .inl ((hf d hd).1 hmem)
  · exact .inr ((hf d hd).2 hmem)

theorem filterMap_range_getElem? (fs : List Fragment) :
    ((List.range fs.length).filterMap fun i => fs[i]?) = fs := by
  induction fs with
  | nil => rfl
  | cons f fs ih =>
      have hzero : (f :: fs)[0]? = some f := rfl
      rw [List.length_cons, List.range_succ_eq_map, List.filterMap_cons_some hzero,
        List.filterMap_map]
      exact congrArg (f :: ·) ih

/-- An order holds the same fragments as before, each as often. -/
theorem perm_of_order {out : List Fragment} (h : order fs known = .ok out) : out.Perm fs := by
  obtain ⟨indices, hindices, rfl⟩ := Outcome.map_eq_ok.mp h
  obtain ⟨hs, hall⟩ := sound_of_visitAll hindices
  have hperm : indices.Perm (List.range fs.length) := by
    refine (List.perm_ext_iff_of_nodup hs.nodup List.nodup_range).mpr ?_
    intro i
    rw [List.mem_range]
    exact ⟨hs.lt_length i, hall i⟩
  have := hperm.filterMap fun i => fs[i]?
  rwa [filterMap_range_getElem?] at this

theorem supplied_of_order {out : List Fragment} (h : order fs known = .ok out) :
    Supplied (fun front f => ∀ d ∈ f.dependencies,
      (d ∈ fs.map name → d ∈ front.map name) ∧ (d ∉ fs.map name → d ∈ known)) out := by
  obtain ⟨indices, hindices, rfl⟩ := Outcome.map_eq_ok.mp h
  exact (sound_of_visitAll hindices).1.supplied

theorem arranged_of_order {out : List Fragment} (h : order fs known = .ok out) :
    Arranged known out := by
  obtain ⟨indices, hindices, rfl⟩ := Outcome.map_eq_ok.mp h
  exact (sound_of_visitAll hindices).1.arranged

/-! ## When an order is found -/

/-- One fragment spreads the name of another, both given by their indices. -/
def Next (fs : List Fragment) (i j : Nat) : Prop :=
  ∃ f, fs[i]? = some f ∧ ∃ d ∈ f.dependencies, indexOf? fs d = some j

theorem spreads_of_next (h : Next fs i j) :
    Spreads fs ((fs[i]?.map name).getD "") ((fs[j]?.map name).getD "") := by
  obtain ⟨f, hf, d, hd, hj⟩ := h
  obtain ⟨g, hg, rfl⟩ := indexOf?_eq_some hj
  simp only [hf, hg, Option.map_some, Option.getD_some]
  exact ⟨f, List.mem_of_getElem? hf, rfl, hd⟩

theorem acyclic_next (h : Acyclic (Spreads fs)) : Acyclic (Next fs) :=
  h.of_map _ fun _ _ => spreads_of_next

/-- A sound order holds whatever its fragments lead to. -/
theorem Sound.mem_of_next (h : Sound fs known placed) (hi : i ∈ placed) (hnext : Next fs i j) :
    j ∈ placed := by
  induction h with
  | nil => exact absurd hi List.not_mem_nil
  | snoc _ _ found ready ih =>
      rename_i placed i' f _ _
      refine List.mem_append_left _ ?_
      rcases List.mem_append.mp hi with hi | hi
      · exact ih hi
      · obtain rfl := List.mem_singleton.mp hi
        obtain ⟨f', hf', d, hd, hj⟩ := hnext
        obtain rfl := Option.some.inj (found.symm.trans hf')
        have hready := ready d hd
        rwa [Ready, hj] at hready

theorem Sound.mem_of_reached (h : Sound fs known placed) (hi : i ∈ placed)
    (hreached : ReflTransGen (Next fs) i j) : j ∈ placed := by
  induction hreached with
  | refl => exact hi
  | tail _ hnext ih => exact h.mem_of_next ih hnext

/-- A visit succeeds if it cannot run into a cycle and each name leads somewhere. Its path cannot
grow to the number of fragments, so its room is enough. -/
theorem visit_ok (hacyclic : Acyclic (Next fs))
    (hknown : ∀ f ∈ fs, ∀ d ∈ f.dependencies, d ∈ fs.map name ∨ d ∈ known)
    (hi : i < fs.length) (hway : Way (Next fs) path i) (hroom : fs.length < path.length + room) :
    ∃ placed', visit fs known room path placed i = .ok placed' := by
  induction room generalizing path placed i with
  | zero =>
      -- a way without a cycle is shorter than the list, so there is room left
      have hlt := hway.length_lt (List.range fs.length) hacyclic
        (fun j k ⟨f, hf, _⟩ => List.mem_range.mpr (List.getElem?_eq_some_iff.mp hf).1)
        (List.mem_range.mpr hi)
      rw [List.length_range] at hlt
      omega
  | succ room ih =>
      rw [visit_succ]
      split
      · exact ⟨placed, rfl⟩
      · rw [if_neg (hway.not_mem hacyclic)]
        have hf := List.getElem?_eq_getElem hi
        rw [hf]
        obtain ⟨below, hbelow⟩ := Outcome.foldlM_ok
          (f := follow fs known room (path ++ [i]) fs[i].location)
          fs[i].dependencies (b := placed) (by
            intro d hd placed
            unfold follow
            split
            · rename_i j hj
              obtain ⟨g, hg, _⟩ := indexOf?_eq_some hj
              have hnext : Next fs i j := ⟨_, hf, d, hd, hj⟩
              refine ih (List.getElem?_eq_some_iff.mp hg).1 (hway.step hacyclic hnext) ?_
              rw [List.length_append, List.length_singleton]
              omega
            · rename_i hnone
              have hk := (hknown _ (List.getElem_mem hi) d hd).resolve_left
                  (indexOf?_eq_none.mp hnone)
              exact ⟨placed, if_pos hk⟩)
        exact ⟨below ++ [i], Outcome.bind_eq_ok.mpr ⟨below, hbelow, rfl⟩⟩

/-- Fragments can be ordered if they make no cycle and each name they spread stands for one of them
or is known. -/
theorem order_ok (hacyclic : Acyclic (Spreads fs))
    (hknown : ∀ f ∈ fs, ∀ d ∈ f.dependencies, d ∈ fs.map name ∨ d ∈ known) :
    ∃ out, order fs known = .ok out := by
  obtain ⟨indices, hindices⟩ := Outcome.foldlM_ok (f := visit fs known (fs.length + 1) [])
    (List.range fs.length) (b := []) (by
      intro i hi placed
      exact visit_ok (acyclic_next hacyclic) hknown (List.mem_range.mp hi) .nil (by simp))
  exact ⟨_, Outcome.map_eq_ok.mpr ⟨indices, hindices, rfl⟩⟩

/-! ## What does not bear on an order -/

/-- What is known from elsewhere decides whether a visit succeeds, not what it makes. -/
theorem visit_unique {known' : List String} {below below' : List Nat}
    (h : visit fs known room path placed i = .ok below)
    (h' : visit fs known' room path placed i = .ok below') : below = below' := by
  induction room generalizing path placed below below' i with
  | zero => cases h
  | succ room ih =>
      rw [visit_succ] at h h'
      split at h
      · rename_i hplaced
        rw [if_pos hplaced] at h'
        exact Except.ok.inj (h.symm.trans h')
      · rename_i hplaced
        rw [if_neg hplaced] at h'
        split at h
        · cases h
        · rename_i hpath
          rw [if_neg hpath] at h'
          split at h
          · rename_i hnone
            rw [hnone] at h'
            exact Except.ok.inj (h.symm.trans h')
          · rename_i f hf
            rw [hf] at h'
            obtain ⟨mid, hmid, hlast⟩ := Outcome.bind_eq_ok.mp h
            obtain ⟨mid', hmid', hlast'⟩ := Outcome.bind_eq_ok.mp h'
            -- names of fragments are followed alike; other names add nothing
            obtain rfl : mid = mid' := by
              refine Outcome.foldlM_unique (fun d _ placed next next' hnext hnext' => ?_) hmid hmid'
              unfold follow at hnext hnext'
              cases hindex : indexOf? fs d with
              | some j =>
                  rw [hindex] at hnext hnext'
                  exact ih hnext hnext'
              | none =>
                  simp only [hindex] at hnext hnext'
                  split at hnext
                  · split at hnext'
                    · exact Except.ok.inj (hnext.symm.trans hnext')
                    · cases hnext'
                  · cases hnext
            exact Except.ok.inj (hlast.symm.trans hlast')

theorem order_unique {known' : List String} {out out' : List Fragment}
    (h : order fs known = .ok out) (h' : order fs known' = .ok out') :
    out = out' := by
  obtain ⟨indices, hindices, rfl⟩ := Outcome.map_eq_ok.mp h
  obtain ⟨indices', hindices', rfl⟩ := Outcome.map_eq_ok.mp h'
  have hsame : indices = indices' :=
    Outcome.foldlM_unique (fun _ _ _ _ _ hnext hnext' => visit_unique hnext hnext') hindices
      hindices'
  rw [hsame]

end Composables.Fragment
