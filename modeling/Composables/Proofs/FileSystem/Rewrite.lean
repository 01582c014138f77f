import Composables.Proofs.FileSystem.Write
import Mathlib.Data.String.Basic

/-
  Writing again. Where a file was written it can be written again, with no directory to make
  (`Ready`); and writing all files once more, each text at its place, changes nothing, not even
  where several of them come to one place (`Settled`).
-/

namespace Composables.FileSystem

open Composables.Path (Segment Component)

/-! ## Entries at places of their own -/

namespace Entries

theorem insert_insert (k : Place) (n n' : Node) (es : Entries) :
    insert k n (insert k n' es) = insert k n es := by
  induction es with
  | nil => simp [insert]
  | cons e es ih =>
      obtain ⟨k', m⟩ := e
      simp only [insert]
      split
      · simp [insert]
      · rename_i hne
        split
        · simp [insert]
        · rename_i hlt
          simp [insert, hne, hlt, ih]

/-- The order in which two places are set does not matter. -/
theorem insert_comm {k k' : Place} (h : k ≠ k') (n n' : Node) (es : Entries) :
    insert k n (insert k' n' es) = insert k' n' (insert k n es) := by
  induction es with
  | nil =>
      rcases lt_trichotomy k k' with hlt | heq | hlt
      · simp [insert, hlt, h, h.symm, hlt.not_gt]
      · exact absurd heq h
      · simp [insert, hlt, h, h.symm, hlt.not_gt]
  | cons e es ih =>
      obtain ⟨place, node⟩ := e
      grind [insert]

end Entries

variable {fs fs' fs'' : FileSystem} {p : Path} {k k' : Place} {n n' : Node} {contents : Contents}
  {log : List Written} {w : Written} {text : String}

theorem insert_insert (fs : FileSystem) (k : Place) (n n' : Node) :
    (fs.insert k n').insert k n = fs.insert k n :=
  congrArg (FileSystem.mk fs.current) (Entries.insert_insert k n n' fs.entries)

theorem insert_comm (h : k ≠ k') (fs : FileSystem) (n n' : Node) :
    (fs.insert k' n').insert k n = (fs.insert k n).insert k' n' :=
  congrArg (FileSystem.mk fs.current) (Entries.insert_comm h n n' fs.entries)

/-- The files with a text at its place. -/
def put (fs : FileSystem) (w : Written) : FileSystem :=
  fs.insert (fs.placeOf w.path) (.file (.text w.text))

/-- The files with all texts of a log at their places; the log is newest first. -/
def putAll (log : List Written) (fs : FileSystem) : FileSystem :=
  log.foldr (fun w fs => fs.put w) fs

theorem placeOf_putAll (log : List Written) (fs : FileSystem) (p : Path) :
    (putAll log fs).placeOf p = fs.placeOf p := by
  induction log with
  | nil => rfl
  | cons w log ih => exact ih

/-- What is set at other places may be set before. -/
theorem putAll_insert_of_ne (h : ∀ w ∈ log, fs.placeOf w.path ≠ k) :
    putAll log (fs.insert k n) = (putAll log fs).insert k n := by
  induction log with
  | nil => rfl
  | cons w log ih =>
      rw [List.forall_mem_cons] at h
      show (putAll log (fs.insert k n)).put w = ((putAll log fs).put w).insert k n
      have hplace : k ≠ (putAll log fs).placeOf w.path := by
        rw [placeOf_putAll]
        exact h.1.symm
      rw [ih h.2, put, put, insert_comm hplace]
      rfl

/-- What is set last at a place makes up for what was set there first. -/
theorem insert_putAll_insert (log : List Written) (fs : FileSystem) (k : Place) (n n' : Node) :
    (putAll log (fs.insert k n')).insert k n = (putAll log fs).insert k n := by
  induction log with
  | nil => exact insert_insert fs k n n'
  | cons w log ih =>
      show ((putAll log (fs.insert k n')).put w).insert k n = ((putAll log fs).put w).insert k n
      have hplace : (putAll log (fs.insert k n')).placeOf w.path =
          (putAll log fs).placeOf w.path := by
        rw [placeOf_putAll, placeOf_putAll]
        rfl
      rw [put, put, hplace]
      by_cases hk : k = (putAll log fs).placeOf w.path
      · rw [← hk, insert_insert, insert_insert, ih]
      · rw [insert_comm hk, insert_comm hk, ih]

/-! ## Paths that are ready for writing -/

theorem isDirectory_iff :
    fs.isDirectory p = true ↔ ∃ k, fs.resolve p = .ok k ∧ fs.node? k = some .directory := by
  simp only [← find_eq_ok]
  unfold isDirectory
  split
  · rename_i k hfind
    exact iff_of_true rfl ⟨k, hfind⟩
  · rename_i hother
    exact iff_of_false Bool.false_ne_true fun ⟨k, hfind⟩ => hother k hfind

theorem target_mono (hcurrent : fs'.current = fs.current)
    (hdirectories : ∀ k, fs.node? k = some .directory → fs'.node? k = some .directory)
    {t : Target} (h : fs.target p = .ok t) : fs'.target p = .ok t := by
  unfold target at h ⊢
  rw [start_congr hcurrent]
  split at h
  · exact h
  · obtain ⟨k, hfront, h⟩ := Outcome.bind_eq_ok.mp h
    obtain ⟨directory, hdot, h⟩ := Outcome.bind_eq_ok.mp h
    obtain ⟨hnode, hstep⟩ := enter_eq_ok.mp hdot
    refine Outcome.bind_eq_ok.mpr ⟨k, foldlM_enter_mono hdirectories hfront, ?_⟩
    exact Outcome.bind_eq_ok.mpr
      ⟨directory, enter_eq_ok.mpr ⟨hdirectories k hnode, hstep⟩, h⟩

/-- A path that leads somewhere has a target, and leads to the name in it if there is one. -/
theorem target_of_resolve (h : fs.resolve p = .ok k) :
    ∃ t, fs.target p = .ok t ∧
      ∀ n, Component.ofSegment? t.last = some (.name n) → k = t.directory ++ [n] := by
  unfold resolve at h
  split at h
  · cases h
  · rename_i hempty
    unfold target
    split
    · exact ⟨⟨[], ['.'], true⟩, if_neg hempty, fun n hn => by cases hn⟩
    · rename_i last front hlast
      obtain ⟨slashes, hsegments, hslashes, _⟩ := segments_of_last hlast
      rw [hsegments, List.foldlM_append] at h
      obtain ⟨directory, hfront, h⟩ := Outcome.bind_eq_ok.mp h
      rw [List.foldlM_cons] at h
      obtain ⟨next, hnext, h⟩ := Outcome.bind_eq_ok.mp h
      obtain ⟨hnode, hnext⟩ := enter_eq_ok.mp hnext
      -- slashes at the end lead no further
      have hk : k = next := by
        rw [foldlM_enter h, foldl_step, List.filterMap_eq_nil_iff.mpr]
        · rfl
        · intro s hs
          rw [hslashes s hs]
          rfl
      have hdot : fs.enter directory ['.'] = .ok directory := enter_eq_ok.mpr ⟨hnode, rfl⟩
      refine ⟨⟨directory, last, p.segments.getLast?.any List.isEmpty⟩, ?_, ?_⟩
      · rw [hfront]
        show (fs.enter directory ['.'] >>= fun directory => _) = _
        rw [hdot]
        rfl
      · intro n hn
        rw [hk, hnext, step_eq, hn]
        rfl

/-- Where a directory is, none is made. -/
theorem makeDirectory_of_isDirectory (h : fs.isDirectory p) :
    makeDirectory p fs = .error .alreadyExists fs := by
  obtain ⟨k, hk, hnode⟩ := isDirectory_iff.mp h
  obtain ⟨t, ht, hplace⟩ := target_of_resolve hk
  unfold makeDirectory
  rw [ht]
  dsimp only
  split
  · rename_i n hn
    rw [← hplace n hn, hnode]
  · rfl

/-- A directory that is made is found at its path. -/
theorem isDirectory_of_makeDirectory (h : makeDirectory p fs = .ok () fs') : fs'.isDirectory p := by
  have hmade := made_makeDirectory p fs
  rw [h] at hmade
  unfold makeDirectory at h
  split at h
  · cases h
  · rename_i t ht
    split at h
    · rename_i n hn
      split at h
      · obtain rfl := (EStateM.Result.ok.inj h).2
        have hnode : (fs.insert (t.directory ++ [n]) .directory).node? (t.directory ++ [n]) =
            some .directory := node?_insert_self (by simp)
        have ht' := target_mono hmade.current (fun _ hk => hmade.directories hk) ht
        exact isDirectory_iff.mpr ⟨_, resolve_of_target ht' hn (.inr hnode), hnode⟩
      · cases h
    · cases h

/-- Whether a directory needs no making; the empty path never does. -/
def Standing (fs : FileSystem) (p : Path) : Prop := p.text.isEmpty ∨ fs.isDirectory p

theorem ancestors_eq_cons (p : Path) : ∃ above, p.ancestors = p :: above := by
  unfold Path.ancestors
  cases p.segments.length with
  | zero => exact ⟨[], rfl⟩
  | succ room =>
      unfold Path.ancestorsWithin
      split
      · exact ⟨_, rfl⟩
      · exact ⟨[], rfl⟩

theorem standing_of_makeDirectories (h : makeDirectories p fs = .ok () fs') : fs'.Standing p := by
  obtain ⟨above, habove⟩ := ancestors_eq_cons p
  rw [makeDirectories, habove, makeAll] at h
  split at h
  · rename_i hempty
    exact .inl hempty
  · refine .inr ?_
    dsimp only at h
    split at h
    · rename_i hrun
      cases h
      exact isDirectory_of_makeDirectory hrun
    · split at h
      · cases h
      · split at h
        · rename_i hrun
          cases h
          exact isDirectory_of_makeDirectory hrun
        · split at h
          · rename_i hdirectory
            cases h
            exact hdirectory
          · cases h
    · split at h
      · rename_i hdirectory
        cases h
        exact hdirectory
      · cases h

theorem Standing.makeDirectories (h : fs.Standing p) : makeDirectories p fs = .ok () fs := by
  obtain ⟨above, habove⟩ := ancestors_eq_cons p
  rw [FileSystem.makeDirectories, habove, makeAll]
  split
  · rfl
  · rename_i hempty
    have hdirectory := h.resolve_left hempty
    dsimp only
    rw [makeDirectory_of_isDirectory hdirectory]
    exact if_pos hdirectory

theorem Standing.mono (h : fs.Standing p) (hcurrent : fs'.current = fs.current)
    (hdirectories : ∀ k, fs.node? k = some .directory → fs'.node? k = some .directory) :
    fs'.Standing p := by
  refine h.imp_right fun hdirectory => ?_
  obtain ⟨k, hk, hnode⟩ := isDirectory_iff.mp hdirectory
  exact isDirectory_iff.mpr ⟨k, resolve_mono hcurrent hdirectories hk, hdirectories k hnode⟩

/-- Nothing but the file itself is missing to write to a path. -/
structure Ready (fs : FileSystem) (p : Path) : Prop where
  parent : ∀ q, p.parent? = some q → fs.Standing q
  target : ∃ t n, fs.target p = .ok t ∧ Component.ofSegment? t.last = some (.name n) ∧
    t.slash = false

theorem Ready.mono (h : fs.Ready p) (hcurrent : fs'.current = fs.current)
    (hdirectories : ∀ k, fs.node? k = some .directory → fs'.node? k = some .directory) :
    fs'.Ready p := by
  obtain ⟨t, n, ht, hn, hslash⟩ := h.target
  exact ⟨fun q hq => (h.parent q hq).mono hcurrent hdirectories,
    t, n, target_mono hcurrent hdirectories ht, hn, hslash⟩

/-- A file is no obstacle to it where no directory is. -/
theorem Ready.insert (h : fs.Ready p) (hnode : fs.node? k ≠ some .directory) :
    (fs.insert k (.file contents)).Ready p := by
  refine h.mono rfl fun k' hk' => ?_
  rw [node?_insert_of_ne, hk']
  rintro rfl
  exact hnode hk'

/-- Behind a write, its path is ready for the next one. -/
theorem ready_of_write (h : writeWithParents p contents fs = .ok () fs') : fs'.Ready p := by
  have hrun : ∃ made, (∀ q, p.parent? = some q → made.Standing q) ∧
      FileSystem.write p contents made = .ok () fs' := by
    unfold writeWithParents at h
    cases hparent : p.parent? with
    | none =>
        rw [hparent] at h
        exact ⟨fs, nofun, h⟩
    | some parent =>
        rw [hparent] at h
        obtain ⟨⟨⟩, made, hmake, hwrite⟩ := Outcome.run_bind_eq_ok.mp h
        refine ⟨made, fun q hq => ?_, hwrite⟩
        exact Option.some.inj hq ▸ standing_of_makeDirectories hmake
  obtain ⟨made, hparent, hwrite⟩ := hrun
  obtain ⟨t, n, ht, hn, hslash, hnode, rfl⟩ := write_eq_ok hwrite
  have hready : made.Ready p := ⟨hparent, t, n, ht, hn, hslash⟩
  exact hready.insert hnode

/-- Writing to a path that is ready does nothing else. -/
theorem Ready.write (h : fs.Ready p) (hnode : fs.node? (fs.placeOf p) ≠ some .directory) :
    writeWithParents p contents fs = .ok () (fs.insert (fs.placeOf p) (.file contents)) := by
  obtain ⟨t, n, ht, hn, hslash⟩ := h.target
  have hplace : t.directory ++ [n] = fs.placeOf p :=
    place_of_resolve (resolve_of_target ht hn (.inl hslash))
  have hwrite : FileSystem.write p contents fs =
      .ok () (fs.insert (fs.placeOf p) (.file contents)) := by
    unfold FileSystem.write
    rw [ht]
    simp only [hn, hslash, hplace]
  unfold writeWithParents
  cases hparent : p.parent? with
  | none => exact hwrite
  | some q =>
      refine Outcome.run_bind_eq_ok.mpr ⟨(), fs, ?_, hwrite⟩
      exact (h.parent q hparent).makeDirectories

/-! ## Writing all again -/

/-- All that was written can be written again. -/
structure Writable (log : List Written) (fs : FileSystem) : Prop where
  ready : ∀ w ∈ log, fs.Ready w.path
  files : ∀ w ∈ log, ∃ contents, fs.node? (fs.placeOf w.path) = some (.file contents)

namespace Writable

/-- No file is written where a directory is, and no directory is lost. -/
theorem insert (h : Writable log fs) (hk : k ≠ []) (hnode : fs.node? k ≠ some .directory) :
    Writable log (fs.insert k (.file contents)) := by
  constructor
  case ready => exact fun w hw => (h.ready w hw).insert hnode
  case files =>
    intro w hw
    show ∃ contents', (fs.insert k _).node? (fs.placeOf w.path) = some (.file contents')
    by_cases hplace : fs.placeOf w.path = k
    · rw [hplace]
      exact ⟨contents, node?_insert_self hk⟩
    · rw [node?_insert_of_ne hplace]
      exact h.files w hw

theorem made (h : Writable log fs) (hmade : Made fs fs') : Writable log fs' := by
  refine ⟨fun w hw => (h.ready w hw).mono hmade.current fun _ => hmade.directories, fun w hw => ?_⟩
  obtain ⟨contents, hcontents⟩ := h.files w hw
  rw [placeOf_congr hmade.current]
  exact ⟨contents, hmade.nodes not_false hcontents⟩

/-- Texts that can be written again are put at their places, and nothing else happens. -/
theorem writes (h : Writable log fs) {ws : List Written} (hws : ∀ w ∈ ws, w ∈ log) :
    Writes ws fs (putAll ws.reverse fs) := by
  induction ws generalizing fs with
  | nil => exact .nil fs
  | cons w ws ih =>
      rw [List.forall_mem_cons] at hws
      obtain ⟨contents, hcontents⟩ := h.files w hws.1
      have hk : fs.placeOf w.path ≠ [] := by
        intro hk
        rw [hk] at hcontents
        cases hcontents
      have hnode : fs.node? (fs.placeOf w.path) ≠ some .directory := by
        rw [hcontents]
        nofun
      rw [putAll, List.reverse_cons, List.foldr_append]
      exact .cons ((h.ready w hws.1).write hnode) (ih (h.insert hk hnode) hws.2)

end Writable

/-- All that was written can be written again, which changes nothing. -/
structure Settled (log : List Written) (fs : FileSystem) : Prop extends Writable log fs where
  putAll : putAll log fs = fs

namespace Settled

theorem nil (fs : FileSystem) : Settled [] fs where
  ready := fun _ h => absurd h List.not_mem_nil
  files := fun _ h => absurd h List.not_mem_nil
  putAll := rfl

/-- Making directories where nothing is leaves all in place. -/
theorem made (h : Settled log fs) (hmade : Made fs fs') : Settled log fs' := by
  induction hmade with
  | refl => exact h
  | @directory fs' k hmade hnone ih =>
      refine ⟨ih.toWritable.made (Changed.refl.directory hnone), ?_⟩
      have hplaces : ∀ w ∈ log, fs'.placeOf w.path ≠ k := by
        rintro w hw rfl
        obtain ⟨contents, hcontents⟩ := ih.files w hw
        rw [hnone] at hcontents
        cases hcontents
      rw [putAll_insert_of_ne hplaces, ih.putAll]
  | file _ hfree => exact hfree.elim

/-- One more write is settled with those before it. -/
theorem snoc (h : Settled log fs) (hwrite : writeWithParents p (.text text) fs = .ok () fs') :
    Settled (⟨p, text⟩ :: log) fs' := by
  have hready := ready_of_write hwrite
  obtain ⟨made, hmade, _, hnode, hk, rfl⟩ := writeWithParents_eq_ok hwrite
  rw [← placeOf_congr hmade.current p] at hnode hk hready ⊢
  have hsettled := h.made hmade
  have hwritable : Writable log (made.insert (made.placeOf p) (.file (.text text))) :=
    hsettled.toWritable.insert hk hnode
  constructor
  case toWritable =>
    refine ⟨List.forall_mem_cons.mpr ⟨hready, hwritable.ready⟩, ?_⟩
    exact List.forall_mem_cons.mpr ⟨⟨.text text, node?_insert_self hk⟩, hwritable.files⟩
  case putAll =>
    have hplace : ∀ n, (FileSystem.putAll log (made.insert (made.placeOf p) n)).placeOf p =
        made.placeOf p := fun n => placeOf_putAll log (made.insert (made.placeOf p) n) p
    show (FileSystem.putAll log _).put ⟨p, text⟩ = _
    rw [put, hplace, insert_putAll_insert, hsettled.putAll]

theorem of_writes {ws : List Written} (h : Settled log fs) (hws : Writes ws fs fs') :
    Settled (ws.reverse ++ log) fs' := by
  induction hws generalizing log with
  | nil => exact h
  | cons hwrite _ ih =>
      rw [List.reverse_cons, List.append_assoc]
      exact ih (h.snoc hwrite)

end Settled

theorem Writes.settled {ws : List Written} (h : Writes ws fs fs') : Settled ws.reverse fs' :=
  List.append_nil ws.reverse ▸ (Settled.nil fs).of_writes h

/-- Texts that were written, one after the other, can be so once more, and nothing changes. -/
theorem Writes.again {ws : List Written} (h : Writes ws fs fs') : Writes ws fs' fs' := by
  have hwrites := h.settled.toWritable.writes fun w hw => List.mem_reverse.mpr hw
  rwa [h.settled.putAll] at hwrites

/-- Writing changes nothing but the places of the paths. -/
theorem Writes.changed {ws : List Written} (h : Writes ws fs fs') :
    Changed (fun k => ∃ w ∈ ws, fs.placeOf w.path = k) fs fs' := by
  induction h with
  | nil => exact .refl
  | @cons w ws fs mid fs' hwrite hrest ih =>
      obtain ⟨made, hmade, _, hnode, hk, rfl⟩ := writeWithParents_eq_ok hwrite
      have hfirst : Changed (fun k => ∃ w' ∈ w :: ws, fs.placeOf w'.path = k) fs
          (made.insert (fs.placeOf w.path) (.file (.text w.text))) :=
        (hmade.mono fun _ h => h.elim).file ⟨w, List.mem_cons_self, rfl⟩ hk hnode
      refine hfirst.trans (ih.mono ?_)
      rintro k ⟨w', hw', rfl⟩
      exact ⟨w', List.mem_cons_of_mem w hw', (placeOf_congr hfirst.current w'.path).symm⟩

end Composables.FileSystem
