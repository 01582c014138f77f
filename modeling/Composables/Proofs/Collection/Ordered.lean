import Composables.Proofs.Collection.Follow
import Composables.Proofs.Fragment.Stable

/-
  The two depth-first runs over fragments. Ordering keeps a path and fails on a fragment that leads
  back to it; following names keeps none. Where ordering succeeds there is nothing to lead back, and
  each step of its run is one of the run that follows the names (`follows_of_runs`). So all names
  together come to the order, and some of them to the part of the fragments that they reach
  (`reachable_order`).
-/

namespace Composables

open Relation (ReflTransGen)
open Fragment (Runs Next Reaches call?)

variable {fs out xs : List Fragment} {known : List String} {path placed placed' : List Nat}
  {i : Nat} {calls : List (Except Error Nat)} {location : Location} {f : Fragment} {c : Collection}
  {found : List Fragment} {n : String} {ns : List String}

/-! ## What names call for -/

namespace Fragment

/-- The fragments at some indices. -/
def pick (fs : List Fragment) (indices : List Nat) : List Fragment :=
  indices.filterMap fun i => fs[i]?

theorem mem_names_pick (hnames : (fs.map name).Nodup) (hf : fs[i]? = some f) :
    f.name ∈ (pick fs placed).map name ↔ i ∈ placed := by
  constructor
  · intro h
    obtain ⟨g, hg, hname⟩ := List.mem_map.mp h
    obtain ⟨j, hj, hget⟩ := List.mem_filterMap.mp hg
    rwa [← getElem?_inj hnames hget hf hname]
  · intro hi
    exact List.mem_map_of_mem (List.mem_filterMap.mpr ⟨i, hi, hf⟩)

theorem pick_snoc (hf : fs[i]? = some f) : pick fs (placed ++ [i]) = pick fs placed ++ [f] := by
  rw [pick, List.filterMap_append, List.filterMap_cons_some hf, List.filterMap_nil, pick]

theorem call?_name (hnames : (fs.map name).Nodup) (hf : fs[i]? = some f) :
    call? fs known location f.name = some (.ok i) := by
  rw [call?, indexOf?_name hnames hf]

theorem exists_of_call? (h : call? fs known location n = some (.ok i)) :
    ∃ f, fs[i]? = some f ∧ f.name = n := by
  unfold call? at h
  split at h
  · rename_i j hj
    cases h
    exact indexOf?_eq_some hj
  · split at h <;> cases h

/-- Nothing is called for only by a name that stands for no fragment. -/
theorem not_mem_of_call? (h : call? fs known location n = none) : n ∉ fs.map name := by
  unfold call? at h
  split at h
  · cases h
  · rename_i hnone
    exact indexOf?_eq_none.mp hnone

/-- The names of all fragments call for all of them, one after the other. -/
theorem filterMap_call? (hnames : (fs.map name).Nodup) :
    (fs.map name).filterMap (call? fs known location) = (List.range fs.length).map .ok := by
  have hpick : fs.map name = (pick fs (List.range fs.length)).map name :=
    congrArg (List.map name) (filterMap_range_getElem? fs).symm
  rw [hpick, pick, List.map_filterMap, List.filterMap_filterMap, ← List.filterMap_eq_map]
  refine List.filterMap_congr fun i hi => ?_
  have hf := List.getElem?_eq_getElem (List.mem_range.mp hi)
  rw [hf, Option.map_some, Option.bind_some, call?_name hnames hf]
  rfl

/-- Some fragments of a list are called for by their names, and nothing else is. -/
theorem mem_calls_iff (hnames : (fs.map name).Nodup) (hxs : xs ⊆ fs) {call : Except Error Nat} :
    call ∈ (xs.map name).filterMap (call? fs known location) ↔
      ∃ i, call = .ok i ∧ ∃ x ∈ xs, fs[i]? = some x := by
  rw [List.mem_filterMap]
  constructor
  · rintro ⟨_, hn, hcall⟩
    obtain ⟨x, hx, rfl⟩ := List.mem_map.mp hn
    obtain ⟨i, hi⟩ := List.mem_iff_getElem?.mp (hxs hx)
    rw [call?_name hnames hi] at hcall
    exact ⟨i, (Option.some.inj hcall).symm, x, hx, hi⟩
  · rintro ⟨i, rfl, x, hx, hi⟩
    exact ⟨x.name, List.mem_map_of_mem hx, call?_name hnames hi⟩

/-! ## Runs that cannot fail -/

/-- Without a cycle and without a name that stands for nothing, a run over visits succeeds. -/
theorem exists_runs (hacyclic : Acyclic (Spreads fs)) (hclosed : Closed fs known)
    (hcalls : ∀ call ∈ calls, ∃ i < fs.length, call = .ok i) :
    ∃ placed, Runs fs known [] [] calls (.ok placed) := by
  obtain ⟨placed, hplaced⟩ := Outcome.foldlM_ok
    (f := fun placed call => call >>= visit fs known (fs.length + 1) [] placed) calls (b := [])
    (by
      intro call hcall placed
      obtain ⟨i, hi, rfl⟩ := hcalls call hcall
      exact visit_ok (acyclic_next hacyclic) hclosed hi .nil (by simp))
  refine ⟨placed, hplaced ▸ runs_foldlM fun placed i hi => ?_⟩
  obtain ⟨_, hlt, heq⟩ := hcalls _ hi
  cases heq
  exact runs_visit hlt List.nodup_nil (by simp) (by simp)

/-- What some fragments of a list reach, each fragment once and behind those of the list that it
spreads. -/
structure Reached (fs xs found : List Fragment) : Prop where
  mem_iff : ∀ f, f ∈ found ↔ f ∈ fs ∧ ∃ x ∈ xs, Reaches fs x f
  nodup : (found.map name).Nodup
  closed : ∀ f ∈ found, ∀ d ∈ f.dependencies, d ∈ fs.map name → d ∈ found.map name
  behind : Supplied (fun front f => ∀ d ∈ f.dependencies, d ∈ fs.map name → d ∈ front.map name)
    found

theorem nodup_pick (hnames : (fs.map name).Nodup) (h : placed.Nodup) :
    ((pick fs placed).map name).Nodup := by
  rw [pick, List.map_filterMap]
  refine h.filterMap fun i j n hi hj => ?_
  obtain ⟨f, hf, hname⟩ := Option.map_eq_some_iff.mp hi
  obtain ⟨g, hg, hname'⟩ := Option.map_eq_some_iff.mp hj
  exact getElem?_inj hnames hf hg (hname.trans hname'.symm)

theorem reached_of_runs (hnames : (fs.map name).Nodup) (hxs : xs ⊆ fs)
    (h : Runs fs known [] [] ((xs.map name).filterMap (call? fs known location)) (.ok placed)) :
    Reached fs xs (pick fs placed) := by
  have hadds := h.adds .nil
  have hbehind := hadds.sound.supplied
  refine ⟨fun f => ?_, nodup_pick hnames hadds.sound.nodup, fun f hf d hd hown => ?_,
    hbehind.imp fun front f _ hf d hd => (hf d hd).1⟩
  · rw [pick, List.mem_filterMap]
    constructor
    · rintro ⟨j, hj, hf⟩
      obtain ⟨i, hi, hij⟩ := (hadds.reached j hj).resolve_left List.not_mem_nil
      obtain ⟨_, heq, x, hx, hget⟩ := (mem_calls_iff hnames hxs).mp hi
      cases heq
      exact ⟨List.mem_of_getElem? hf, x, hx, (reaches_iff hnames hget hf).mp hij⟩
    · rintro ⟨hf, x, hx, hreaches⟩
      obtain ⟨i, hi⟩ := List.mem_iff_getElem?.mp (hxs hx)
      obtain ⟨j, hj⟩ := List.mem_iff_getElem?.mp hf
      obtain ⟨_, hplaced, heq⟩ :=
        hadds.complete (.ok i) ((mem_calls_iff hnames hxs).mpr ⟨i, rfl, x, hx, hi⟩)
      cases heq
      have hij := (reaches_iff hnames hi hj).mpr hreaches
      exact ⟨j, hadds.sound.mem_of_reached hplaced hij, hj⟩
  · obtain ⟨front, back, hsplit⟩ := List.append_of_mem hf
    have hfront := (hbehind front f back hsplit d hd).1 hown
    rw [hsplit, List.map_append]
    exact List.mem_append_left _ hfront

end Fragment

/-! ## Following names -/

namespace Collection

/-- The names of a collection stand for the fragments of a list, and for nothing else. -/
def NamesJust (c : Collection) (fs : List Fragment) : Prop :=
  ∀ n f, c.fragment? n = some f ↔ f ∈ fs ∧ f.name = n

theorem namesJust (hnames : (fs.map Fragment.name).Nodup) (hperm : c.fragments.Perm fs)
    (himported : c.imported = []) : NamesJust c fs := by
  intro n f
  rw [fragment?_eq_find?, all_eq_fragments himported, find?_perm hperm
    ((hperm.map Fragment.name).nodup_iff.mpr hnames), find?_eq_some_iff hnames]
  rfl

theorem NamesJust.eq_none (hc : NamesJust c fs) (hn : n ∉ fs.map Fragment.name) :
    c.fragment? n = none := by
  refine Option.eq_none_iff_forall_ne_some.mpr fun f hf => hn ?_
  obtain ⟨hmem, rfl⟩ := (hc n f).mp hf
  exact List.mem_map_of_mem hmem

theorem NamesJust.acyclic (hc : NamesJust c fs) (hacyclic : Acyclic (Fragment.Spreads fs)) :
    Acyclic c.Spreads := by
  refine hacyclic.of_map id ?_
  rintro a b ⟨f, hf, hb⟩
  obtain ⟨hmem, hname⟩ := (hc a f).mp hf
  exact ⟨f, hmem, hname, hb⟩

/-- Names that stand for nothing are passed over. -/
theorem Follows.skip {ms : List String} {next : List Fragment} (h : c.Follows found ns next)
    (hms : ∀ m ∈ ms, c.fragment? m = none) : c.Follows found (ms ++ ns) next := by
  induction ms with
  | nil => exact h
  | cons m ms ih =>
      rw [List.forall_mem_cons] at hms
      by_cases hold : m ∈ found.map Fragment.name
      · exact .present hold (ih hms.2)
      · exact .unknown hold hms.1 (ih hms.2)

/-- A run that orders and succeeds does what a run does that follows names: those that it calls for
and, in between, those that stand for nothing. -/
theorem follows_of_runs (hnames : (fs.map Fragment.name).Nodup) (hc : NamesJust c fs)
    (h : Runs fs known path placed calls (.ok placed')) (hs : Fragment.Sound fs known placed)
    (hcalls : ns.filterMap (call? fs known location) = calls) :
    c.Follows (Fragment.pick fs placed) ns (Fragment.pick fs placed') := by
  have hnone : ∀ {location : Location} {m : String}, call? fs known location m = none →
      c.fragment? m = none := fun h => hc.eq_none (Fragment.not_mem_of_call? h)
  generalize hr : Except.ok placed' = r at h
  induction h generalizing ns location placed' with
  | done =>
      cases hr
      rw [← List.append_nil ns]
      exact Follows.skip .nil fun m hm => hnone (List.filterMap_eq_nil_iff.mp hcalls m hm)
  | unknown | cycle | fail => cases hr
  | skip ended _ ih =>
      obtain ⟨ms, n, ns', rfl, hms, hn, hrest⟩ := List.filterMap_eq_cons_iff.mp hcalls
      obtain ⟨f, hf, rfl⟩ := Fragment.exists_of_call? hn
      refine Follows.skip (.present ?_ (ih hs hrest hr)) fun m hm => hnone (hms m hm)
      exact (Fragment.mem_names_pick hnames hf).mpr ended
  | visit fresh forth found hbelow hrun ih ihrest =>
      rename_i path placed below i calls f r
      obtain ⟨ms, n, ns', rfl, hms, hn, hrest⟩ := List.filterMap_eq_cons_iff.mp hcalls
      obtain ⟨f', hf', rfl⟩ := Fragment.exists_of_call? hn
      obtain rfl := Option.some.inj (found.symm.trans hf')
      have hadds := hbelow.adds hs
      have hclose := hadds.close fresh forth found hadds.ready
      -- its path tells that what the fragment spreads has not put the fragment itself
      have hfresh : i ∉ below := fun hi =>
        (hadds.fresh i hi).elim fresh fun hback => hback (by simp)
      have hpick : (if (Fragment.pick fs below).any fun g => g.name == f.name
          then Fragment.pick fs below else Fragment.pick fs below ++ [f]) =
          Fragment.pick fs (below ++ [i]) := by
        rw [Fragment.pick_snoc found, if_neg]
        rwa [any_name, Fragment.mem_names_pick hnames found]
      refine Follows.skip (.fragment ?_ ?_ (ih hs rfl rfl) ?_) fun m hm => hnone (hms m hm)
      · exact mt (Fragment.mem_names_pick hnames found).mp fresh
      · exact (hc f.name f).mpr ⟨List.mem_of_getElem? found, rfl⟩
      · rw [hpick]
        exact ihrest hclose.sound hrest hr

/-- Where fragments of different names can be ordered, names can be followed in a collection of just
these fragments, as they were or in their order: the run comes to an end though nothing bounds it.
All names, as the fragments were, come to the order that was found; those of some fragments come to
what these reach, each fragment once and behind those that it spreads. -/
theorem reachable_order (hnames : (fs.map Fragment.name).Nodup)
    (h : Fragment.order fs known = .ok out) (hfragments : c.fragments = fs ∨ c.fragments = out)
    (himported : c.imported = []) :
    (∀ ns found, c.Follows [] ns found ↔ found = c.reachable ns) ∧
    c.reachable (fs.map Fragment.name) = out ∧
    ∀ xs ⊆ fs, Fragment.Reached fs xs (c.reachable (xs.map Fragment.name)) := by
  have hperm : c.fragments.Perm fs := by
    rcases hfragments with heq | heq
    · rw [heq]
    · exact heq ▸ Fragment.perm_of_order h
  have hc : NamesJust c fs := namesJust hnames hperm himported
  obtain ⟨hclosed, hacyclic⟩ := Fragment.closed_of_order hnames h
  have hfollows : ∀ ns found, c.Follows [] ns found ↔ found = c.reachable ns :=
    fun _ _ => follows_iff (hc.acyclic hacyclic)
  refine ⟨hfollows, ?_, fun xs hxs => ?_⟩
  · obtain ⟨indices, hindices, rfl⟩ := Outcome.map_eq_ok.mp h
    have hcalls : (fs.map Fragment.name).filterMap (call? fs known default) =
        (List.range fs.length).map .ok := Fragment.filterMap_call? hnames
    have hrun := follows_of_runs hnames hc (Fragment.wholeRun_iff.mpr hindices) .nil hcalls
    exact ((hfollows _ _).mp hrun).symm
  · have hcalls : ∀ call ∈ (xs.map Fragment.name).filterMap (call? fs known default),
        ∃ i < fs.length, call = .ok i := by
      intro call hcall
      obtain ⟨i, rfl, x, _, hx⟩ := (Fragment.mem_calls_iff hnames hxs).mp hcall
      exact ⟨i, (List.getElem?_eq_some_iff.mp hx).1, rfl⟩
    obtain ⟨placed, hplaced⟩ := Fragment.exists_runs hacyclic hclosed hcalls
    have hrun := follows_of_runs hnames hc hplaced .nil rfl
    rw [← (hfollows _ _).mp hrun]
    exact Fragment.reached_of_runs hnames hxs hplaced

/-- In a family that spreads a name in two ways, the names of all come to its order, and those of a
part to the part. -/
theorem reachable_order_family :
    let c : Collection := ⟨[], Fragment.family, []⟩
    (Fragment.family.map Fragment.name).Nodup ∧
      Fragment.order Fragment.family ["Owner"] =
        .ok (c.reachable ["Parent", "Child", "Pet", "Name"]) ∧
      (c.reachable ["Parent", "Child", "Pet", "Name"]).map Fragment.name =
        ["Name", "Child", "Pet", "Parent"] ∧
      Fragment.Reached Fragment.family (Fragment.family.drop 2) (c.reachable ["Pet", "Name"]) ∧
      (c.reachable ["Pet", "Name"]).map Fragment.name = ["Name", "Pet"] := by
  intro c
  have hnames : (Fragment.family.map Fragment.name).Nodup := by decide +kernel
  obtain ⟨out, hout⟩ : ∃ out, Fragment.order Fragment.family ["Owner"] = .ok out := ⟨_, rfl⟩
  obtain ⟨_, hall, hpart⟩ := reachable_order (c := c) hnames hout (.inl rfl) rfl
  have hreached := hpart (Fragment.family.drop 2) (List.drop_subset 2 _)
  refine ⟨hnames, hout.trans (congrArg Except.ok hall.symm), by decide +kernel, hreached, ?_⟩
  decide +kernel

end Collection

end Composables
