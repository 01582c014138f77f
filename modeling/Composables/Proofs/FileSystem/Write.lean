import Composables.Proofs.FileSystem.Resolve

/-
  Writing files. Directories are made only where nothing is, and a file that is written is found at
  its path, while all else stays as it was. So after any number of writes each place holds what was
  written there last, or what was there before (`Logged`).
-/

namespace Composables.FileSystem

open Composables.Path (Segment Component)

variable {fs fs' : FileSystem} {p : Path} {k k' : Place} {n : Node} {contents : Contents}

/-! ## Places -/

theorem node?_insert_self (hk : k ≠ []) : (fs.insert k n).node? k = some n := by
  rw [node?, if_neg (by simpa using hk)]
  exact Entries.lookup_insert_self k n fs.entries

theorem node?_insert_of_ne (h : k' ≠ k) : (fs.insert k n).node? k' = fs.node? k' := by
  unfold node?
  split
  · rfl
  · exact Entries.lookup_insert_of_ne n fs.entries h

theorem placeOf_congr (h : fs'.current = fs.current) (p : Path) : fs'.placeOf p = fs.placeOf p := by
  unfold placeOf place
  rw [h]

/-! ## Paths that lead somewhere -/

theorem enter_eq_ok {s : Segment} :
    fs.enter k s = .ok k' ↔ fs.node? k = some .directory ∧ k' = step k s := by
  unfold enter
  split
  · rename_i hnode
    simp [hnode, eq_comm]
  · rename_i hnode
    simp [hnode]
  · rename_i hnode
    simp [hnode]

theorem start_congr (hcurrent : fs'.current = fs.current) (p : Path) :
    fs'.start p = fs.start p := by
  unfold FileSystem.start
  rw [hcurrent]

/-- Segments that lead through directories do so where more is there. -/
theorem foldlM_enter_mono
    (hdirectories : ∀ k, fs.node? k = some .directory → fs'.node? k = some .directory)
    {ss : List Segment} (h : ss.foldlM fs.enter k = .ok k') : ss.foldlM fs'.enter k = .ok k' := by
  induction ss generalizing k with
  | nil => exact h
  | cons s ss ih =>
      rw [List.foldlM_cons, Outcome.bind_eq_ok] at h ⊢
      obtain ⟨next, hnext, hrest⟩ := h
      obtain ⟨hnode, hstep⟩ := enter_eq_ok.mp hnext
      exact ⟨next, enter_eq_ok.mpr ⟨hdirectories k hnode, hstep⟩, ih hrest⟩

/-- Where a path leads depends on directories alone. -/
theorem resolve_mono (hcurrent : fs'.current = fs.current)
    (hdirectories : ∀ k, fs.node? k = some .directory → fs'.node? k = some .directory)
    (h : fs.resolve p = .ok k) : fs'.resolve p = .ok k := by
  unfold resolve at h ⊢
  rw [start_congr hcurrent]
  split at h
  · cases h
  · rename_i hempty
    rw [if_neg hempty]
    exact foldlM_enter_mono hdirectories h

theorem readText_of_node {text : String} (hk : fs.resolve p = .ok k)
    (hnode : fs.node? k = some (.file (.text text))) : fs.readText p = .ok text :=
  Outcome.bind_eq_ok.mpr ⟨_, find_eq_ok.mpr ⟨hk, hnode⟩, rfl⟩

/-! ## Making directories -/

/-- What files become where directories are made only if nothing is there, and files are written at
some places. -/
inductive Changed (free : Place → Prop) (fs : FileSystem) : FileSystem → Prop where
  | refl : Changed free fs fs
  | directory {fs' : FileSystem} {k : Place} (h : Changed free fs fs') (hk : fs'.node? k = none) :
      Changed free fs (fs'.insert k .directory)
  | file {fs' : FileSystem} {k : Place} {contents : Contents} (h : Changed free fs fs')
      (hfree : free k) (hk : k ≠ []) (hnode : fs'.node? k ≠ some .directory) :
      Changed free fs (fs'.insert k (.file contents))

namespace Changed

variable {fs'' : FileSystem} {free free' : Place → Prop}

theorem trans (h : Changed free fs fs') (h' : Changed free fs' fs'') : Changed free fs fs'' := by
  induction h' with
  | refl => exact h
  | directory _ hk ih => exact ih.directory hk
  | file _ hfree hk hnode ih => exact ih.file hfree hk hnode

theorem mono (h : Changed free fs fs') (hfree : ∀ k, free k → free' k) :
    Changed free' fs fs' := by
  induction h with
  | refl => exact .refl
  | directory _ hk ih => exact ih.directory hk
  | file _ hk' hk hnode ih => exact ih.file (hfree _ hk') hk hnode

theorem current (h : Changed free fs fs') : fs'.current = fs.current := by
  induction h with
  | refl => rfl
  | directory _ _ ih => exact ih
  | file _ _ _ _ ih => exact ih

theorem directories (h : Changed free fs fs') (hk : fs.node? k = some .directory) :
    fs'.node? k = some .directory := by
  induction h with
  | refl => exact hk
  | directory _ hnone ih =>
      rw [node?_insert_of_ne, ih]
      rintro rfl
      rw [ih] at hnone
      cases hnone
  | file _ _ _ hnode ih =>
      rw [node?_insert_of_ne, ih]
      rintro rfl
      exact hnode ih

/-- Where no file may be written, all that is there stays there. -/
theorem nodes (h : Changed free fs fs') (hfree : ¬ free k) (hk : fs.node? k = some n) :
    fs'.node? k = some n := by
  induction h with
  | refl => exact hk
  | directory _ hnone ih =>
      rw [node?_insert_of_ne, ih]
      rintro rfl
      rw [ih] at hnone
      cases hnone
  | file _ hk' _ _ ih =>
      rw [node?_insert_of_ne, ih]
      rintro rfl
      exact hfree hk'

end Changed

/-- Directories are made where nothing was, and nothing else happens. -/
abbrev Made (fs fs' : FileSystem) : Prop := Changed (fun _ => False) fs fs'

/-- The files after an action, whether it succeeds or fails. -/
def after {ε σ α : Type} : EStateM.Result ε σ α → σ
  | .ok _ s => s
  | .error _ s => s

/-- Making a directory takes nothing away, even where it fails. -/
theorem made_makeDirectory (p : Path) (fs : FileSystem) : Made fs (after (makeDirectory p fs)) := by
  unfold makeDirectory
  split
  · exact .refl
  · split
    · split
      · rename_i hnode
        exact Changed.refl.directory hnode
      · exact .refl
    · exact .refl

theorem made_makeAll (ps : List Path) (fs : FileSystem) : Made fs (after (makeAll ps fs)) := by
  induction ps generalizing fs with
  | nil => exact .refl
  | cons p above ih =>
      have hfirst := made_makeDirectory p fs
      unfold makeAll
      split
      · exact .refl
      · split
        · rename_i hrun
          rwa [hrun] at hfirst
        · rename_i missing hrun
          rw [hrun] at hfirst
          have habove := hfirst.trans (ih missing)
          split
          · rename_i habove'
            rwa [habove'] at habove
          · rename_i made habove'
            rw [habove'] at habove
            have hagain := habove.trans (made_makeDirectory p made)
            split
            · rename_i hrun'
              rwa [hrun'] at hagain
            · rename_i hrun'
              rw [hrun'] at hagain
              split
              · exact hagain
              · exact hagain
        · rename_i hrun
          rw [hrun] at hfirst
          split
          · exact hfirst
          · exact hfirst

/-! ## Writing a file -/

/-- Behind the last segment of a path there is nothing, or slashes that ask for a directory. -/
theorem segments_of_last {last : Segment} {front : List Segment}
    (hlast : p.segments.reverse.dropWhile List.isEmpty = last :: front) :
    ∃ slashes, p.segments = front.reverse ++ last :: slashes ∧ (∀ s ∈ slashes, s = []) ∧
      (p.segments.getLast?.any List.isEmpty = false → slashes = []) := by
  refine ⟨(p.segments.reverse.takeWhile List.isEmpty).reverse, ?_, ?_, ?_⟩
  · have hsplit := List.takeWhile_append_dropWhile (p := List.isEmpty) (l := p.segments.reverse)
    rw [hlast] at hsplit
    have hreverse := congrArg List.reverse hsplit
    simpa using hreverse.symm
  · intro s hs
    have hempty := List.all_eq_true.mp List.all_takeWhile s (List.mem_reverse.mp hs)
    exact List.isEmpty_iff.mp hempty
  · intro hslash
    rw [List.reverse_eq_nil_iff]
    cases hsegments : p.segments.reverse with
    | nil => rfl
    | cons s ss =>
        rw [← List.head?_reverse, hsegments] at hslash
        exact List.takeWhile_cons_of_neg (by simpa using hslash)

theorem foldlM_slashes {slashes : List Segment} (hslashes : ∀ s ∈ slashes, s = [])
    (hk : fs.node? k = some .directory) : slashes.foldlM fs.enter k = .ok k := by
  induction slashes with
  | nil => rfl
  | cons s ss ih =>
      rw [List.forall_mem_cons] at hslashes
      obtain ⟨rfl, hss⟩ := hslashes
      exact Outcome.bind_eq_ok.mpr ⟨k, enter_eq_ok.mpr ⟨hk, rfl⟩, ih hss⟩

/-- What a target consists of. -/
theorem target_eq_ok {t : Target} {n : String} (ht : fs.target p = .ok t)
    (hname : Component.ofSegment? t.last = some (.name n)) :
    fs.node? t.directory = some .directory ∧ p.text.isEmpty = false ∧
      ∃ front slashes, p.segments = front ++ t.last :: slashes ∧ (∀ s ∈ slashes, s = []) ∧
        (t.slash = false → slashes = []) ∧
        front.foldlM fs.enter (fs.start p) = .ok t.directory := by
  unfold target at ht
  split at ht
  · split at ht
    · cases ht
    · obtain rfl := Except.ok.inj ht
      cases hname
  · rename_i last front hlast
    obtain ⟨k, hfront, ht⟩ := Outcome.bind_eq_ok.mp ht
    obtain ⟨directory, hdot, ht⟩ := Outcome.bind_eq_ok.mp ht
    obtain rfl := Except.ok.inj ht
    obtain ⟨hnode, rfl⟩ := enter_eq_ok.mp hdot
    obtain ⟨slashes, hsegments, hslashes, hslash⟩ := segments_of_last hlast
    refine ⟨hnode, ?_, front.reverse, slashes, hsegments, hslashes, hslash, hfront⟩
    by_contra hempty
    rw [Bool.not_eq_false, String.isEmpty_iff] at hempty
    have hnil : p.segments = [[]] := by
      rw [Path.segments, hempty]
      rfl
    rw [hnil] at hlast
    cases hlast

/-- A path whose last segment is a name leads to that name in the directory before it; with a slash
behind the name, that has to be a directory. -/
theorem resolve_of_target {t : Target} {n : String} (ht : fs.target p = .ok t)
    (hname : Component.ofSegment? t.last = some (.name n))
    (hslash : t.slash = false ∨ fs.node? (t.directory ++ [n]) = some .directory) :
    fs.resolve p = .ok (t.directory ++ [n]) := by
  obtain ⟨hnode, hempty, front, slashes, hsegments, hslashes, hnone, hfront⟩ :=
    target_eq_ok ht hname
  have henter : fs.enter t.directory t.last = .ok (t.directory ++ [n]) := by
    refine enter_eq_ok.mpr ⟨hnode, ?_⟩
    rw [step_eq, hname]
    rfl
  rw [resolve, hempty, if_neg Bool.false_ne_true, hsegments, List.foldlM_append, hfront]
  show (t.last :: slashes).foldlM fs.enter t.directory = _
  rw [List.foldlM_cons, henter]
  show slashes.foldlM fs.enter (t.directory ++ [n]) = _
  rcases hslash with hslash | hdirectory
  · rw [hnone hslash]
    rfl
  · exact foldlM_slashes hslashes hdirectory

/-- A write that succeeds puts the file under the last name of the path. -/
theorem write_eq_ok (h : write p contents fs = .ok () fs') :
    ∃ t n, fs.target p = .ok t ∧ Component.ofSegment? t.last = some (.name n) ∧ t.slash = false ∧
      fs.node? (t.directory ++ [n]) ≠ some .directory ∧
      fs' = fs.insert (t.directory ++ [n]) (.file contents) := by
  unfold write at h
  split at h
  · cases h
  · rename_i t ht
    split at h
    · rename_i n hname hslash
      split at h
      · cases h
      · rename_i hnode
        obtain rfl := (EStateM.Result.ok.inj h).2
        exact ⟨t, n, ht, hname, hslash, hnode, rfl⟩
    · cases h

/-- The same with the directories made before, where they were missing. -/
theorem writeWithParents_eq_ok (h : writeWithParents p contents fs = .ok () fs') :
    ∃ made, Made fs made ∧ made.resolve p = .ok (fs.placeOf p) ∧
      made.node? (fs.placeOf p) ≠ some .directory ∧ fs.placeOf p ≠ [] ∧
      fs' = made.insert (fs.placeOf p) (.file contents) := by
  obtain ⟨made, hmade, hwrite⟩ : ∃ made, Made fs made ∧ write p contents made = .ok () fs' := by
    unfold writeWithParents at h
    cases hparent : p.parent? with
    | none =>
        rw [hparent] at h
        exact ⟨fs, .refl, h⟩
    | some parent =>
        rw [hparent] at h
        obtain ⟨⟨⟩, made, hrun, hwrite⟩ := Outcome.run_bind_eq_ok.mp h
        have hmade := made_makeAll parent.ancestors fs
        rw [← makeDirectories, hrun] at hmade
        exact ⟨made, hmade, hwrite⟩
  obtain ⟨t, n, ht, hname, hslash, hnode, rfl⟩ := write_eq_ok hwrite
  have hresolve := resolve_of_target ht hname (.inl hslash)
  have hplace : t.directory ++ [n] = fs.placeOf p := by
    rw [place_of_resolve hresolve]
    exact placeOf_congr hmade.current p
  rw [hplace] at hresolve hnode ⊢
  exact ⟨made, hmade, hresolve, hnode, by simp [← hplace], rfl⟩

/-! ## Writing one file after the other -/

/-- A text that was written to a path. -/
structure Written where
  path : Path
  text : String

/-- Texts are written to their paths one after the other, the first of the list first. -/
inductive Writes : List Written → FileSystem → FileSystem → Prop where
  | nil (fs : FileSystem) : Writes [] fs fs
  | cons {w : Written} {ws : List Written} {fs mid fs' : FileSystem}
      (hwrite : writeWithParents w.path (.text w.text) fs = .ok () mid)
      (hrest : Writes ws mid fs') : Writes (w :: ws) fs fs'

/-- The last text that was written to a place; the log is newest first. -/
def lastWritten (fs : FileSystem) (log : List Written) (k : Place) : Option String :=
  (log.find? fun w => fs.placeOf w.path = k).map Written.text

theorem lastWritten_cons (w : Written) (log : List Written) (k : Place) :
    fs.lastWritten (w :: log) k =
      if fs.placeOf w.path = k then some w.text else fs.lastWritten log k := by
  unfold lastWritten
  rw [List.find?_cons]
  by_cases h : fs.placeOf w.path = k <;> simp [h]

/-- What the files are after the writes of a log: all is found where it was written, and each place
has the last text written there, or what was there before. -/
structure Logged (fs : FileSystem) (log : List Written) (fs' : FileSystem) : Prop where
  current : fs'.current = fs.current
  directories : ∀ k, fs.node? k = some .directory → fs'.node? k = some .directory
  resolves : ∀ w ∈ log, fs'.resolve w.path = .ok (fs.placeOf w.path)
  written : ∀ k text, fs.lastWritten log k = some text → fs'.node? k = some (.file (.text text))
  kept : ∀ k n, fs.lastWritten log k = none → fs.node? k = some n → fs'.node? k = some n

namespace Logged

variable {log : List Written} {w : Written} {text : String} {q : Path}

theorem nil (fs : FileSystem) : Logged fs [] fs where
  current := rfl
  directories := fun _ h => h
  resolves := fun _ h => absurd h List.not_mem_nil
  written := fun _ _ h => by cases h
  kept := fun _ _ _ h => h

/-- A write comes in front of the log. -/
theorem snoc (h : Logged fs log fs') {fs'' : FileSystem}
    (hwrite : writeWithParents p (.text text) fs' = .ok () fs'') :
    Logged fs (⟨p, text⟩ :: log) fs'' := by
  obtain ⟨made, hmade, hresolve, hnode, hk, rfl⟩ := writeWithParents_eq_ok hwrite
  rw [placeOf_congr h.current p] at hresolve hnode hk ⊢
  -- a write changes what is at its place, which is no directory
  have hother : ∀ k n, k ≠ fs.placeOf p → fs'.node? k = some n →
      (made.insert (fs.placeOf p) (.file (.text text))).node? k = some n := by
    intro k n hne hn
    rw [node?_insert_of_ne hne]
    exact hmade.nodes not_false hn
  have hstays : ∀ k, made.node? k = some .directory →
      (made.insert (fs.placeOf p) (.file (.text text))).node? k = some .directory := by
    intro k hdirectory
    rw [node?_insert_of_ne, hdirectory]
    rintro rfl
    exact hnode hdirectory
  constructor
  case current => exact hmade.current.trans h.current
  case directories => exact fun k hn => hstays k (hmade.directories (h.directories k hn))
  case resolves =>
    intro w hw
    rcases List.mem_cons.mp hw with rfl | hw
    · exact resolve_mono (Eq.refl made.current) hstays hresolve
    · exact resolve_mono hmade.current (fun k hn => hstays k (hmade.directories hn))
        (h.resolves w hw)
  case written =>
    intro k text' hlast
    rw [lastWritten_cons] at hlast
    split at hlast
    · rename_i hplace
      obtain rfl : text = text' := Option.some.inj hlast
      rw [← hplace]
      exact node?_insert_self hk
    · rename_i hplace
      exact hother k _ (Ne.symm hplace) (h.written k text' hlast)
  case kept =>
    intro k n hlast hn
    rw [lastWritten_cons] at hlast
    split at hlast
    · cases hlast
    · rename_i hplace
      exact hother k n (Ne.symm hplace) (h.kept k n hlast hn)

/-- A run of writes comes in front of the log, in reverse order. -/
theorem writes {ws : List Written} {fs'' : FileSystem} (h : Logged fs log fs')
    (hws : Writes ws fs' fs'') : Logged fs (ws.reverse ++ log) fs'' := by
  induction hws generalizing log with
  | nil => exact h
  | cons hwrite _ ih =>
      rw [List.reverse_cons, List.append_assoc]
      exact ih (h.snoc hwrite)

theorem mem_of_lastWritten (h : fs.lastWritten log k = some text) :
    ∃ w ∈ log, fs.placeOf w.path = k ∧ w.text = text := by
  obtain ⟨w, hw, htext⟩ := Option.map_eq_some_iff.mp h
  exact ⟨w, List.mem_of_find?_eq_some hw, by simpa using List.find?_some hw, htext⟩

theorem exists_lastWritten (hw : w ∈ log) :
    ∃ text, fs.lastWritten log (fs.placeOf w.path) = some text := by
  obtain ⟨last, hlast⟩ :
      ∃ last, log.find? (fun w' => fs.placeOf w'.path = fs.placeOf w.path) = some last :=
    Option.isSome_iff_exists.mp (List.find?_isSome.mpr ⟨w, hw, by simp⟩)
  exact ⟨last.text, Option.map_eq_some_iff.mpr ⟨last, hlast, rfl⟩⟩

/-- A path that leads to where something was written finds what was written there last. -/
theorem readText_last (h : Logged fs log fs') (hq : fs'.resolve q = .ok (fs.placeOf q))
    (hlast : fs.lastWritten log (fs.placeOf q) = some text) : fs'.readText q = .ok text :=
  readText_of_node hq (h.written _ _ hlast)

/-- A path that led to a text still leads somewhere. -/
theorem resolves_read (h : Logged fs log fs') (hq : fs.readText q = .ok text) :
    fs'.resolve q = .ok (fs.placeOf q) := by
  obtain ⟨k, hk, _⟩ := node_of_readText hq
  rw [place_of_resolve hk] at hk
  exact resolve_mono h.current h.directories hk

theorem readText_kept (h : Logged fs log fs') (hq : fs.readText q = .ok text)
    (hlast : fs.lastWritten log (fs.placeOf q) = none) : fs'.readText q = .ok text := by
  obtain ⟨k, hk, hnode⟩ := node_of_readText hq
  rw [place_of_resolve hk] at hnode
  exact readText_of_node (h.resolves_read hq) (h.kept _ _ hlast hnode)

/-- Each text is found where it was written, and each of some files as it was, exactly if texts of
one place are one text, and a text at the place of one of the files is what that file says. -/
theorem intact_iff (h : Logged fs log fs') {input : Path → Prop}
    (hinput : ∀ q, input q → ∃ text, fs.readText q = .ok text) :
    ((∀ w ∈ log, fs'.readText w.path = .ok w.text) ∧
        ∀ q, input q → fs'.readText q = fs.readText q) ↔
      (∀ w ∈ log, ∀ w' ∈ log, fs.placeOf w.path = fs.placeOf w'.path → w.text = w'.text) ∧
        ∀ w ∈ log, ∀ q, input q → fs.placeOf w.path = fs.placeOf q →
          fs.readText q = .ok w.text := by
  constructor
  · rintro ⟨hwritten, hkept⟩
    refine ⟨fun w hw w' hw' hplace => ?_, fun w hw q hq hplace => ?_⟩
    · rw [← placeOf_congr h.current, ← placeOf_congr h.current] at hplace
      exact text_of_placeOf hplace (hwritten w hw) (hwritten w' hw')
    · obtain ⟨text, htext⟩ := hinput q hq
      rw [← placeOf_congr h.current, ← placeOf_congr h.current] at hplace
      rw [htext, text_of_placeOf hplace (hwritten w hw) ((hkept q hq).trans htext)]
  · rintro ⟨hone, hsame⟩
    refine ⟨fun w hw => ?_, fun q hq => ?_⟩
    · obtain ⟨last, hlast⟩ := exists_lastWritten hw
      obtain ⟨w', hw', hplace, rfl⟩ := mem_of_lastWritten hlast
      rw [hone w hw w' hw' hplace.symm]
      exact h.readText_last (h.resolves w hw) hlast
    · obtain ⟨text, htext⟩ := hinput q hq
      cases hlast : fs.lastWritten log (fs.placeOf q) with
      | none => rw [htext, h.readText_kept htext hlast]
      | some last =>
          obtain ⟨w, hw, hplace, rfl⟩ := mem_of_lastWritten hlast
          rw [hsame w hw q hq hplace]
          exact h.readText_last (h.resolves_read htext) hlast

end Logged

end Composables.FileSystem
