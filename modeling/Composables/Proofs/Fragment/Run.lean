import Composables.Proofs.Fragment.Order
import Mathlib.Data.List.Chain

/-
  Depth-first runs without a bound. `Runs` says what a run over fragments comes to, however deep it
  goes; it comes to one end at most (`Runs.unique`). A path holds no fragment twice, so the bound
  that `visit` keeps is never met, and each run comes to an end (`wholeRun_iff`). A run that
  succeeds adds what its calls reach and nothing else (`Runs.adds`); one that fails has met a cycle
  or a name that stands for nothing (`Runs.truthful`).
-/

namespace Composables.Fragment

open Relation (ReflTransGen)

variable {fs : List Fragment} {known : List String} {room : Nat} {path placed placed' : List Nat}
  {i : Nat} {calls : List (Except Error Nat)} {r r' : Except Error (List Nat)} {e : Error}

/-! ## Runs -/

/-- What a name that a fragment at a location spreads calls for: a visit, an error, or nothing if it
is known from elsewhere. -/
def call? (fs : List Fragment) (known : List String) (location : Location) (d : String) :
    Option (Except Error Nat) :=
  match indexOf? fs d with
  | some j => some (.ok j)
  | none => if d ∈ known then none else some (.error (.unknownFragment d location))

/-- What a fragment calls for, in the order in which it spreads. -/
def callsOf (fs : List Fragment) (known : List String) (f : Fragment) : List (Except Error Nat) :=
  f.dependencies.filterMap (call? fs known f.location)

/-- A run over calls that goes as deep as they lead. `path` holds the fragments whose visits are
under way, `placed` those whose visits are over. -/
inductive Runs (fs : List Fragment) (known : List String) :
    List Nat → List Nat → List (Except Error Nat) → Except Error (List Nat) → Prop
  | done {path placed : List Nat} : Runs fs known path placed [] (.ok placed)
  | unknown {path placed : List Nat} {e : Error} {calls : List (Except Error Nat)} :
      Runs fs known path placed (.error e :: calls) (.error e)
  | skip {path placed : List Nat} {i : Nat} {calls : List (Except Error Nat)}
      {r : Except Error (List Nat)} (ended : i ∈ placed)
      (rest : Runs fs known path placed calls r) :
      Runs fs known path placed (.ok i :: calls) r
  | cycle {path placed : List Nat} {i : Nat} {calls : List (Except Error Nat)} (fresh : i ∉ placed)
      (back : i ∈ path) :
      Runs fs known path placed (.ok i :: calls)
        (.error (.circularFragment (namesAt fs (path.dropWhile (· ≠ i) ++ [i]))))
  | fail {path placed : List Nat} {i : Nat} {calls : List (Except Error Nat)} {f : Fragment}
      {e : Error} (fresh : i ∉ placed) (forth : i ∉ path) (found : fs[i]? = some f)
      (below : Runs fs known (path ++ [i]) placed (callsOf fs known f) (.error e)) :
      Runs fs known path placed (.ok i :: calls) (.error e)
  | visit {path placed placed' : List Nat} {i : Nat} {calls : List (Except Error Nat)}
      {f : Fragment} {r : Except Error (List Nat)} (fresh : i ∉ placed) (forth : i ∉ path)
      (found : fs[i]? = some f)
      (below : Runs fs known (path ++ [i]) placed (callsOf fs known f) (.ok placed'))
      (rest : Runs fs known path (placed' ++ [i]) calls r) :
      Runs fs known path placed (.ok i :: calls) r

/-- The run that visits all fragments, one after the other. -/
def WholeRun (fs : List Fragment) (known : List String) (r : Except Error (List Nat)) : Prop :=
  Runs fs known [] [] ((List.range fs.length).map .ok) r

/-- A run comes to one end. -/
theorem Runs.unique (h : Runs fs known path placed calls r)
    (h' : Runs fs known path placed calls r') : r = r' := by
  induction h generalizing r' with
  | done =>
      cases h'
      rfl
  | unknown =>
      cases h'
      rfl
  | skip ended _ ih =>
      cases h' with
      | skip _ rest => exact ih rest
      | cycle fresh | fail fresh | visit fresh => exact absurd ended fresh
  | cycle fresh back =>
      cases h' with
      | skip ended => exact absurd ended fresh
      | cycle => rfl
      | fail _ forth | visit _ forth => exact absurd back forth
  | fail fresh forth found _ ih =>
      cases h' with
      | skip ended => exact absurd ended fresh
      | cycle _ back => exact absurd back forth
      | fail _ _ found' below =>
          obtain rfl := Option.some.inj (found.symm.trans found')
          rw [Except.error.inj (ih below)]
      | visit _ _ found' below =>
          obtain rfl := Option.some.inj (found.symm.trans found')
          cases ih below
  | visit fresh forth found _ _ ih ihrest =>
      cases h' with
      | skip ended => exact absurd ended fresh
      | cycle _ back => exact absurd back forth
      | fail _ _ found' below =>
          obtain rfl := Option.some.inj (found.symm.trans found')
          cases ih below
      | visit _ _ found' below rest =>
          obtain rfl := Option.some.inj (found.symm.trans found')
          obtain rfl := Except.ok.inj (ih below)
          exact ihrest rest

/-! ## The bound is not met -/

/-- A run over calls whose first one succeeds by itself. -/
theorem Runs.cons (h : Runs fs known path placed [.ok i] (.ok placed'))
    (hrest : Runs fs known path placed' calls r) :
    Runs fs known path placed (.ok i :: calls) r := by
  cases h with
  | skip ended rest =>
      cases rest
      exact .skip ended hrest
  | visit fresh forth found below rest =>
      cases rest
      exact .visit fresh forth found below hrest

/-- A run over calls whose first one fails by itself. -/
theorem Runs.cons_error (h : Runs fs known path placed [.ok i] (.error e)) :
    Runs fs known path placed (.ok i :: calls) (.error e) := by
  cases h with
  | skip ended rest => cases rest
  | cycle fresh back => exact .cycle fresh back
  | fail fresh forth found below => exact .fail fresh forth found below
  | visit fresh forth found below rest => cases rest

/-- Visits that are runs make a run, one after the other. -/
theorem runs_foldlM {step : List Nat → Nat → Except Error (List Nat)}
    (h : ∀ placed i, .ok i ∈ calls → Runs fs known path placed [.ok i] (step placed i)) :
    Runs fs known path placed calls
      (calls.foldlM (fun placed call => call >>= step placed) placed) := by
  induction calls generalizing placed with
  | nil => exact .done
  | cons call calls ih =>
      rw [List.foldlM_cons]
      cases call with
      | error e => exact .unknown
      | ok i =>
          have hfirst := h placed i List.mem_cons_self
          show Runs fs known path placed (.ok i :: calls) (step placed i >>= _)
          cases hstep : step placed i with
          | error e => exact (hstep ▸ hfirst).cons_error
          | ok next =>
              exact (hstep ▸ hfirst).cons
                (ih fun placed j hj => h placed j (List.mem_cons_of_mem _ hj))

/-- Following the names that a fragment spreads is answering its calls. -/
theorem foldlM_follow (f : Fragment) (placed : List Nat) :
    f.dependencies.foldlM (follow fs known room path f.location) placed =
      (callsOf fs known f).foldlM (fun placed call => call >>= visit fs known room path placed)
        placed := by
  unfold callsOf
  generalize f.dependencies = ds
  induction ds generalizing placed with
  | nil => rfl
  | cons d ds ih =>
      rw [List.foldlM_cons]
      unfold follow
      cases hindex : indexOf? fs d with
      | some j =>
          have hcall : call? fs known f.location d = some (.ok j) := by rw [call?, hindex]
          rw [List.filterMap_cons_some hcall, List.foldlM_cons]
          exact bind_congr fun next => ih next
      | none =>
          by_cases hknown : d ∈ known
          · have hcall : call? fs known f.location d = none := by rw [call?, hindex, if_pos hknown]
            rw [List.filterMap_cons_none hcall, if_pos hknown]
            exact ih placed
          · have hcall : call? fs known f.location d =
                some (.error (.unknownFragment d f.location)) := by
              rw [call?, hindex, if_neg hknown]
            rw [List.filterMap_cons_some hcall, List.foldlM_cons, if_neg hknown]
            rfl

theorem lt_length_of_mem_callsOf {f : Fragment} (h : .ok i ∈ callsOf fs known f) :
    i < fs.length := by
  obtain ⟨d, _, hcall⟩ := List.mem_filterMap.mp h
  unfold call? at hcall
  split at hcall
  · rename_i j hj
    obtain ⟨g, hg, _⟩ := indexOf?_eq_some hj
    cases hcall
    exact (List.getElem?_eq_some_iff.mp hg).1
  · split at hcall <;> cases hcall

/-- A visit with room for the fragments that are not on its path goes as deep as it leads: there is
no room left only if the path holds more fragments than there are. -/
theorem runs_visit (hi : i < fs.length) (hnodup : path.Nodup) (hpath : ∀ j ∈ path, j < fs.length)
    (hroom : fs.length < path.length + room) :
    Runs fs known path placed [.ok i] (visit fs known room path placed i) := by
  induction room generalizing path placed i with
  | zero =>
      -- no fragment stands on the path twice, so it is no longer than the list
      have hsub : path ⊆ List.range fs.length := fun j hj => List.mem_range.mpr (hpath j hj)
      have := (List.subperm_of_subset hnodup hsub).length_le
      rw [List.length_range] at this
      omega
  | succ room ih =>
      rw [visit_succ]
      split
      · rename_i hended
        exact .skip hended .done
      · rename_i hfresh
        split
        · rename_i hback
          exact .cycle hfresh hback
        · rename_i hforth
          have hf := List.getElem?_eq_getElem hi
          have hnodup' : (path ++ [i]).Nodup := by
            rw [← List.concat_eq_append, List.nodup_concat]
            exact ⟨hforth, hnodup⟩
          have hpath' : ∀ j ∈ path ++ [i], j < fs.length :=
            List.forall_mem_append.mpr ⟨hpath, List.forall_mem_singleton.mpr hi⟩
          have hbelow : Runs fs known (path ++ [i]) placed (callsOf fs known fs[i]) _ :=
            runs_foldlM fun _ j hj => ih (lt_length_of_mem_callsOf hj)
              hnodup' hpath' (by rw [List.length_append, List.length_singleton]; omega)
          rw [hf]
          dsimp only
          rw [foldlM_follow]
          cases hrun : (callsOf fs known fs[i]).foldlM
            (fun placed call => call >>= visit fs known room (path ++ [i]) placed) placed with
          | error e => exact .fail hfresh hforth hf (hrun ▸ hbelow)
          | ok below => exact .visit hfresh hforth hf (hrun ▸ hbelow) .done

/-- The whole run comes to an end, and that is what `visitAll` finds. -/
theorem wholeRun_iff : WholeRun fs known r ↔ visitAll fs known = r := by
  have hrun : WholeRun fs known (visitAll fs known) := by
    unfold WholeRun visitAll
    have hfold : Runs fs known [] [] ((List.range fs.length).map .ok)
        (((List.range fs.length).map .ok).foldlM
          (fun placed call => call >>= visit fs known (fs.length + 1) [] placed) []) := by
      refine runs_foldlM fun placed i hi => ?_
      obtain ⟨j, hj, hij⟩ := List.mem_map.mp hi
      cases hij
      exact runs_visit (List.mem_range.mp hj) List.nodup_nil (by simp) (by simp)
    rwa [List.foldlM_map] at hfold
  constructor
  · exact hrun.unique
  · rintro rfl
    exact hrun

/-! ## Runs that succeed -/

/-- A fragment calls for the visits of those that it leads to. -/
theorem mem_callsOf_iff {f : Fragment} {j : Nat} (hf : fs[i]? = some f) :
    .ok j ∈ callsOf fs known f ↔ Next fs i j := by
  have hcall : ∀ d, call? fs known f.location d = some (.ok j) ↔ indexOf? fs d = some j := by
    intro d
    unfold call?
    cases indexOf? fs d with
    | some k => simp
    | none =>
        dsimp only
        split <;> simp
  rw [callsOf, List.mem_filterMap]
  simp only [hcall]
  constructor
  · rintro ⟨d, hd, hj⟩
    exact ⟨f, hf, d, hd, hj⟩
  · rintro ⟨g, hg, d, hd, hj⟩
    obtain rfl := Option.some.inj (hf.symm.trans hg)
    exact ⟨d, hd, hj⟩

/-- What a run makes of an order if it succeeds: all its calls are visits and are answered, and
besides what they reach nothing is added. -/
structure Adds (fs : List Fragment) (known : List String) (path placed : List Nat)
    (calls : List (Except Error Nat)) (placed' : List Nat) : Prop
    extends Grows fs known path placed placed' where
  complete : ∀ call ∈ calls, ∃ i ∈ placed', call = .ok i
  reached : ∀ j ∈ placed', j ∈ placed ∨ ∃ i, .ok i ∈ calls ∧ ReflTransGen (Next fs) i j

/-- A call that is answered comes in front of the others. -/
theorem Adds.cons {next : List Nat} (h : Grows fs known path placed next) (hi : i ∈ next)
    (hreached : ∀ j ∈ next, j ∈ placed ∨ ReflTransGen (Next fs) i j)
    (h' : Adds fs known path next calls placed') :
    Adds fs known path placed (.ok i :: calls) placed' := by
  refine ⟨h.trans h'.toGrows, ?_, ?_⟩
  · intro call hcall
    rcases List.mem_cons.mp hcall with rfl | hcall
    · exact ⟨i, h'.front.subset hi, rfl⟩
    · exact h'.complete call hcall
  · intro j hj
    rcases h'.reached j hj with hj | ⟨k, hk, hkj⟩
    · exact (hreached j hj).imp_right fun hij => ⟨i, List.mem_cons_self, hij⟩
    · exact .inr ⟨k, List.mem_cons_of_mem _ hk, hkj⟩

/-- The calls of a fragment are answered, so it was ready for its place. -/
theorem Adds.ready {f : Fragment} (h : Adds fs known path placed (callsOf fs known f) placed') :
    ∀ d ∈ f.dependencies, Ready fs known placed' d := by
  intro d hd
  unfold Ready
  have hcall : ∀ call, call? fs known f.location d = some call → ∃ i ∈ placed', call = .ok i :=
    fun call hcall => h.complete call (List.mem_filterMap.mpr ⟨d, hd, hcall⟩)
  unfold call? at hcall
  split
  · rename_i j hj
    rw [hj] at hcall
    obtain ⟨k, hk, hjk⟩ := hcall _ rfl
    cases hjk
    exact hk
  · rename_i hnone
    rw [hnone] at hcall
    by_contra hknown
    obtain ⟨k, _, hk⟩ := hcall _ (if_neg hknown)
    cases hk

theorem Runs.adds (h : Runs fs known path placed calls (.ok placed'))
    (hs : Sound fs known placed) : Adds fs known path placed calls placed' := by
  generalize hr : Except.ok placed' = r at h
  induction h generalizing placed' with
  | done =>
      cases hr
      exact ⟨.refl hs, by simp, fun j hj => .inl hj⟩
  | unknown | cycle | fail => cases hr
  | skip ended _ ih => exact .cons (.refl hs) ended (fun j hj => .inl hj) (ih hs hr)
  | visit fresh forth found _ _ ih ihrest =>
      rename_i path placed below i calls f r _ _
      have hbelow := ih hs rfl
      have hgrows := hbelow.close fresh forth found hbelow.ready
      refine .cons hgrows (by simp) ?_ (ihrest hgrows.sound hr)
      intro j hj
      rcases List.mem_append.mp hj with hj | hj
      · refine (hbelow.reached j hj).imp_right ?_
        rintro ⟨k, hk, hkj⟩
        exact hkj.head ((mem_callsOf_iff found).mp hk)
      · rw [List.mem_singleton.mp hj]
        exact .inr .refl

/-- A run over the calls of two lists is one over those of the first and then over the others. -/
theorem Runs.split {calls' : List (Except Error Nat)}
    (h : Runs fs known path placed (calls ++ calls') (.ok placed')) :
    ∃ next, Runs fs known path placed calls (.ok next) ∧
      Runs fs known path next calls' (.ok placed') := by
  induction calls generalizing placed with
  | nil => exact ⟨placed, .done, h⟩
  | cons call calls ih =>
      cases h with
      | skip ended rest =>
          obtain ⟨next, hnext, hrest⟩ := ih rest
          exact ⟨next, .skip ended hnext, hrest⟩
      | visit fresh forth found below rest =>
          obtain ⟨next, hnext, hrest⟩ := ih rest
          exact ⟨next, .visit fresh forth found below hnext, hrest⟩

/-! ## Runs that fail -/

/-- An error of a name that a fragment spreads and that stands for nothing. -/
def IsUnknown (fs : List Fragment) (known : List String) (e : Error) : Prop :=
  ∃ f ∈ fs, ∃ d ∈ f.dependencies, e = .unknownFragment d f.location ∧ d ∉ fs.map name ∧ d ∉ known

/-- Names that lead along spreads from one back to it, on a way that meets no other of them
twice. -/
structure IsCycle (fs : List Fragment) (names : List String) : Prop where
  two_le : 2 ≤ names.length
  closed : names.head? = names.getLast?
  nodup : names.dropLast.Nodup
  spreads : names.IsChain (Spreads fs)

/-- A call that is due behind a path: a fragment that its last one leads to, or the error of a name
that stands for nothing. -/
def Due (fs : List Fragment) (known : List String) (path : List Nat) : Except Error Nat → Prop
  | .ok j => j < fs.length ∧ ∀ i ∈ path.getLast?, Next fs i j
  | .error e => IsUnknown fs known e

theorem due_of_mem_callsOf {f : Fragment} {call : Except Error Nat} (hf : fs[i]? = some f)
    (h : call ∈ callsOf fs known f) : Due fs known (path ++ [i]) call := by
  obtain ⟨d, hd, hcall⟩ := List.mem_filterMap.mp h
  unfold call? at hcall
  split at hcall
  · rename_i j hj
    obtain rfl := Option.some.inj hcall
    obtain ⟨g, hg, _⟩ := indexOf?_eq_some hj
    refine ⟨(List.getElem?_eq_some_iff.mp hg).1, ?_⟩
    rw [List.getLast?_concat]
    rintro _ ⟨⟩
    exact ⟨f, hf, d, hd, hj⟩
  · rename_i hnone
    split at hcall
    · cases hcall
    · rename_i hknown
      obtain rfl := Option.some.inj hcall
      exact ⟨f, List.mem_of_getElem? hf, d, hd, rfl, indexOf?_eq_none.mp hnone, hknown⟩

/-- A path of a run: each fragment on it spreads the next, and none is on it twice. -/
structure Trail (fs : List Fragment) (path : List Nat) : Prop where
  nodup : path.Nodup
  leads : path.IsChain (Next fs)
  lt_length : ∀ i ∈ path, i < fs.length

theorem Trail.snoc (h : Trail fs path) (hi : i ∉ path) (hdue : Due fs known path (.ok i)) :
    Trail fs (path ++ [i]) := by
  constructor
  case nodup =>
    rw [← List.concat_eq_append, List.nodup_concat]
    exact ⟨hi, h.nodup⟩
  case leads =>
    refine List.isChain_append.mpr ⟨h.leads, .singleton i, ?_⟩
    rintro j hj _ ⟨⟩
    exact hdue.2 j hj
  case lt_length =>
    exact List.forall_mem_append.mpr ⟨h.lt_length, List.forall_mem_singleton.mpr hdue.1⟩

theorem namesAt_eq_map {indices : List Nat} (h : ∀ i ∈ indices, i < fs.length) :
    namesAt fs indices = indices.map fun i => (fs[i]?.map name).getD "" := by
  unfold namesAt
  induction indices with
  | nil => rfl
  | cons i indices ih =>
      obtain ⟨f, hf⟩ : ∃ f, fs[i]? = some f :=
        ⟨_, List.getElem?_eq_getElem (h i List.mem_cons_self)⟩
      have hname : fs[i]?.map name = some f.name := by rw [hf, Option.map_some]
      have hrest := ih fun j hj => h j (List.mem_cons_of_mem i hj)
      simp only [List.filterMap_cons, List.map_cons, hname, Option.getD_some, hrest]

/-- A trail that leads back to a fragment on it closes a cycle there. -/
theorem Trail.isCycle (h : Trail fs path) (hnames : (fs.map name).Nodup) (hi : i ∈ path)
    (hdue : Due fs known path (.ok i)) :
    IsCycle fs (namesAt fs (path.dropWhile (· ≠ i) ++ [i])) := by
  obtain ⟨front, rest, rfl, hfront⟩ := List.eq_append_cons_of_mem hi
  -- what stands in front of `i` leads into the cycle and is no part of it
  have hrest : (front ++ i :: rest).dropWhile (· ≠ i) = i :: rest := by
    rw [List.dropWhile_append_of_pos, List.dropWhile_cons_of_neg (by simp)]
    intro j hj
    exact decide_eq_true fun heq => hfront (heq ▸ hj)
  have hsuffix : i :: rest <:+ front ++ i :: rest := List.suffix_append front (i :: rest)
  have hlast : (i :: rest).getLast? = (front ++ i :: rest).getLast? :=
    (List.getLast?_append_of_ne_nil front (List.cons_ne_nil i rest)).symm
  have hlt : ∀ j ∈ i :: rest, j < fs.length := fun j hj => h.lt_length j (hsuffix.subset hj)
  have hlt' : ∀ j ∈ i :: rest ++ [i], j < fs.length :=
    List.forall_mem_append.mpr ⟨hlt, List.forall_mem_singleton.mpr hdue.1⟩
  rw [hrest, namesAt_eq_map hlt']
  constructor
  case two_le => simp
  case closed => rw [List.map_append, List.map_singleton, List.getLast?_concat]; rfl
  case nodup =>
    rw [List.map_append, List.map_singleton, List.dropLast_concat]
    refine List.Nodup.map_on ?_ (h.nodup.sublist hsuffix.sublist)
    intro j hj k hk hjk
    have hj := hlt j hj
    have hk := hlt k hk
    have hj' : j < (fs.map name).length := by simpa
    have hk' : k < (fs.map name).length := by simpa
    have hsame : (fs.map name)[j] = (fs.map name)[k] := by
      simpa [List.getElem?_eq_getElem hj, List.getElem?_eq_getElem hk] using hjk
    exact hnames.getElem_inj_iff.mp hsame
  case spreads =>
    refine (List.isChain_map _).mpr ?_
    have hchain : (i :: rest ++ [i]).IsChain (Next fs) := by
      refine List.isChain_append.mpr ⟨h.leads.suffix hsuffix, .singleton i, ?_⟩
      rintro j hj _ ⟨⟩
      exact hdue.2 j (hlast ▸ hj)
    exact hchain.imp fun _ _ => spreads_of_next

/-- A run that fails has met a cycle or a name that stands for nothing. -/
theorem Runs.truthful (hnames : (fs.map name).Nodup)
    (h : Runs fs known path placed calls (.error e)) (hpath : Trail fs path)
    (hcalls : ∀ call ∈ calls, Due fs known path call) :
    (∃ cycle, e = .circularFragment cycle ∧ IsCycle fs cycle) ∨ IsUnknown fs known e := by
  generalize hr : Except.error e = r at h
  induction h with
  | done => cases hr
  | unknown =>
      cases hr
      exact .inr (hcalls _ List.mem_cons_self)
  | skip _ _ ih => exact ih hpath (fun call h => hcalls call (List.mem_cons_of_mem _ h)) hr
  | cycle _ back =>
      cases hr
      exact .inl ⟨_, rfl, hpath.isCycle hnames back (hcalls _ List.mem_cons_self)⟩
  | fail _ forth found _ ih =>
      cases hr
      exact ih (hpath.snoc forth (hcalls _ List.mem_cons_self))
        (fun call h => due_of_mem_callsOf found h) rfl
  | visit _ _ _ _ _ _ ihrest =>
      exact ihrest hpath (fun call h => hcalls call (List.mem_cons_of_mem _ h)) hr

end Composables.Fragment
