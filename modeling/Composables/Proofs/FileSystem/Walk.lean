import Composables.Proofs.FileSystem.Rewrite

/-
  Walks after writes. A walk that passes over what was written finds the files it found before, in
  the same order: directories that were made in between hold nothing else (`filter_filesBelow`).
-/

namespace Composables

/-! ## File names -/

namespace Path

variable {p dir : Path} {n : String}

/-- Whether a text is the name of a file or a directory. -/
structure IsName (n : String) : Prop where
  segment : Component.ofSegment? n.toList = some (.name n)
  slash : '/' ∉ n.toList

theorem isName_of_mem {s : Segment} (hs : s ∈ p.segments)
    (hname : Component.ofSegment? s = some (.name n)) : IsName n := by
  obtain rfl : n = String.ofList s := by
    unfold Component.ofSegment? at hname
    split at hname
    · cases hname
    · cases hname
    · cases hname
    · exact (Component.name.inj (Option.some.inj hname)).symm
  constructor
  case segment => rw [String.toList_ofList, hname]
  case slash =>
    rw [String.toList_ofList]
    exact Text.not_mem_of_mem_split s hs

theorem fileName?_eq_some : p.fileName? = some n ↔ p.components.getLast? = some (.name n) := by
  unfold fileName?
  split
  · rename_i hlast
    rw [hlast]
    simp
  · rename_i hlast
    exact ⟨nofun, fun h => absurd h (hlast n)⟩

/-- The last segment is the file name, if it is a name. -/
theorem fileName?_of_segments {front : List Segment} {s : Segment}
    (hsegments : p.segments = front ++ [s]) (hs : Component.ofSegment? s = some (.name n)) :
    p.fileName? = some n := by
  have hlast : ∀ ss : List Segment,
      ((ss ++ [s]).filterMap Component.ofSegment?).getLast? = some (.name n) := by
    intro ss
    rw [List.filterMap_append, List.filterMap_cons_some hs, List.filterMap_nil,
      List.getLast?_concat]
  have hbehind : ∀ (c : Component) (ss : List Segment),
      (c :: (ss ++ [s]).filterMap Component.ofSegment?).getLast? = some (.name n) := by
    intro c ss
    rw [List.getLast?_cons, hlast, Option.getD_some]
  rw [fileName?_eq_some, components, hsegments]
  -- a path may open with its root or with a dot, and the name stands behind that
  unfold componentsOf
  split
  · rename_i hnil
    simp at hnil
  · rename_i hempty
    obtain ⟨-, hs'⟩ | ⟨-, hs'⟩ := List.append_eq_singleton_iff.mp hempty
    · obtain rfl := List.singleton_inj.mp hs'
      cases hs
    · cases hs'
  · rename_i hcons
    obtain ⟨-, hs'⟩ | ⟨rest, rfl, rfl⟩ := List.append_eq_cons_iff.mp hcons
    · obtain rfl := (List.cons_eq_cons.mp hs').1
      cases hs
    · exact hbehind .root rest
  · rename_i hcons
    obtain ⟨-, hs'⟩ | ⟨rest, rfl, rfl⟩ := List.append_eq_cons_iff.mp hcons
    · obtain rfl := (List.cons_eq_cons.mp hs').1
      cases hs
    · exact hbehind .here rest
  · rename_i hcons
    rw [← hcons]
    exact hlast front

theorem fileName?_join (h : IsName n) (dir : Path) : (dir.join ⟨n⟩).fileName? = some n := by
  have hrelative : ¬ (⟨n⟩ : Path).isAbsolute = true := by
    intro habsolute
    have hhead : n.toList.head? = some '/' := by simpa [isAbsolute] using habsolute
    exact h.slash (List.mem_of_head? hhead)
  have hsegments : ∃ front, (dir.join ⟨n⟩).segments = front ++ [n.toList] := by
    unfold join
    rw [if_neg hrelative]
    split
    · rename_i hdir
      show ∃ front, Text.split '/' (dir.text ++ n).toList = front ++ [n.toList]
      rw [String.toList_append]
      rcases Bool.or_eq_true _ _ ▸ hdir with hempty | hslash
      · rw [String.isEmpty_iff.mp hempty]
        exact ⟨[], Text.split_of_not_mem h.slash⟩
      · obtain ⟨front, hfront⟩ := List.getLast?_eq_some_iff.mp (beq_iff_eq.mp hslash)
        refine ⟨Text.split '/' front, ?_⟩
        rw [hfront, List.append_assoc, List.singleton_append, Text.split_append_sep,
          Text.split_of_not_mem h.slash]
    · refine ⟨dir.segments, ?_⟩
      show Text.split '/' (dir.text ++ "/" ++ n).toList = _
      rw [String.toList_append, String.toList_append, List.append_assoc]
      show Text.split '/' (dir.text.toList ++ '/' :: n.toList) = _
      rw [Text.split_append_sep, Text.split_of_not_mem h.slash]
      rfl
  obtain ⟨front, hfront⟩ := hsegments
  exact fileName?_of_segments hfront h.segment

theorem fileName?_name (h : IsName n) : (⟨n⟩ : Path).fileName? = some n := by
  have hsegments : (⟨n⟩ : Path).segments = [] ++ [n.toList] := Text.split_of_not_mem h.slash
  exact fileName?_of_segments hsegments h.segment

end Path

namespace FileSystem

open Composables.Path (Segment Component IsName)

variable {fs fs' : FileSystem} {p : Path} {k : Place} {n : String} {free : Place → Prop}

theorem getLast?_placeOf (h : p.fileName? = some n) (fs : FileSystem) :
    (fs.placeOf p).getLast? = some n := by
  obtain ⟨front, hfront⟩ := List.getLast?_eq_some_iff.mp (Path.fileName?_eq_some.mp h)
  rw [placeOf, place, hfront, List.foldl_append]
  exact List.getLast?_concat

theorem Ready.fileName? (h : fs.Ready p) : ∃ n, IsName n ∧ p.fileName? = some n := by
  obtain ⟨t, n, ht, hn, hslash⟩ := h.target
  obtain ⟨_, _, front, slashes, hsegments, _, hnone, _⟩ := target_eq_ok ht hn
  rw [hnone hslash] at hsegments
  have hmem : t.last ∈ p.segments := by rw [hsegments]; simp
  exact ⟨n, Path.isName_of_mem hmem hn, Path.fileName?_of_segments hsegments hn⟩

/-! ## Walks -/

/-- The path by which a walk from a directory comes to an entry, if that is a file. -/
def fileBelow? (p : Path) (k : Place) (e : Place × Node) : Option Path :=
  if k.isPrefixOf e.1 && e.1 ≠ k then
    match e.2 with
    | .file _ => some ((e.1.drop k.length).foldl (fun p n => p.join ⟨n⟩) p)
    | .directory => none
  else none

theorem filesBelow_eq (h : fs.find p = .ok (k, .directory)) :
    fs.filesBelow p = fs.entries.filterMap (fileBelow? p k) := by
  unfold filesBelow Entries.below
  rw [h]
  dsimp only
  rw [List.filterMap_filterMap]
  congr 1
  funext e
  unfold fileBelow?
  split
  · rfl
  · rfl

/-- Setting a place does not change what is picked if nothing is picked there, neither before nor
after. -/
theorem Entries.filterMap_insert {α : Type} {pick : Place × Node → Option α} {node : Node}
    (hpick : pick (k, node) = none) (es : Entries)
    (hold : ∀ node', (k, node') ∈ es → pick (k, node') = none) :
    (Entries.insert k node es).filterMap pick = es.filterMap pick := by
  induction es with
  | nil => rw [Entries.insert, List.filterMap_cons_none hpick]
  | cons e es ih =>
      obtain ⟨place, node'⟩ := e
      have hrest := ih fun node' hnode' => hold node' (List.mem_cons_of_mem _ hnode')
      unfold Entries.insert
      split
      · rename_i hplace
        have hhead := hold node' (by rw [hplace]; exact List.mem_cons_self)
        rw [List.filterMap_cons_none hpick, ← hplace, List.filterMap_cons_none hhead]
      · split
        · rw [List.filterMap_cons_none hpick]
        · rw [List.filterMap_cons, List.filterMap_cons, hrest]

theorem Entries.lookup_of_mem {es : Entries} {node : Node} (h : (k, node) ∈ es) :
    Entries.lookup k es ≠ none := by
  induction es with
  | nil => cases h
  | cons e es ih =>
      obtain ⟨place, node'⟩ := e
      unfold Entries.lookup
      split
      · exact Option.some_ne_none node'
      · rename_i hplace
        rcases List.mem_cons.mp h with heq | h
        · exact absurd (Prod.mk.inj heq).1 hplace
        · exact ih h

/-- What is picked is neither a directory nor a file at a place that is written to, so it stays. -/
theorem Changed.filterMap_entries {α : Type} {pick : Place × Node → Option α}
    (h : Changed free fs fs') (hdirectory : ∀ k, pick (k, .directory) = none)
    (hfile : ∀ k contents, free k → pick (k, .file contents) = none) :
    fs'.entries.filterMap pick = fs.entries.filterMap pick := by
  induction h with
  | refl => rfl
  | @directory fs' k _ hnone ih =>
      refine (Entries.filterMap_insert (hdirectory k) fs'.entries fun node hnode => ?_).trans ih
      refine absurd ?_ (Entries.lookup_of_mem hnode)
      unfold node? at hnone
      split at hnone
      · cases hnone
      · exact hnone
  | @file fs' k contents _ hfree _ _ ih =>
      refine (Entries.filterMap_insert (hfile k _ hfree) fs'.entries fun node _ => ?_).trans ih
      cases node with
      | directory => exact hdirectory k
      | file contents => exact hfile k contents hfree

theorem Changed.find (h : Changed free fs fs') (hfind : fs.find p = .ok (k, .directory)) :
    fs'.find p = .ok (k, .directory) := by
  obtain ⟨hk, hnode⟩ := find_eq_ok.mp hfind
  exact find_eq_ok.mpr
    ⟨resolve_mono h.current (fun _ => h.directories) hk, h.directories hnode⟩

/-- A walk finds the same files as before, as far as it does not look for what was written. -/
theorem filter_filesBelow {wanted : Path → Bool} (h : Changed free fs fs')
    (hfree : ∀ k, free k → ∃ n, k.getLast? = some n ∧ ∀ dir : Path, wanted (dir.join ⟨n⟩) = false)
    (hfind : fs.find p = .ok (k, .directory)) :
    (fs'.filesBelow p).filter wanted = (fs.filesBelow p).filter wanted := by
  rw [filesBelow_eq hfind, filesBelow_eq (h.find hfind), List.filter_filterMap,
    List.filter_filterMap]
  refine h.filterMap_entries ?_ ?_
  · intro place
    unfold fileBelow?
    split <;> rfl
  · intro place contents hplace
    obtain ⟨n, hlast, hn⟩ := hfree place hplace
    unfold fileBelow?
    split
    · rename_i hbelow
      rw [Bool.and_eq_true, List.isPrefixOf_iff_prefix, decide_eq_true_iff] at hbelow
      obtain ⟨⟨way, rfl⟩, hne⟩ := hbelow
      -- the way from the directory is not empty, and ends in the last name of the place
      have hway : way ≠ [] := fun hway => hne (by rw [hway, List.append_nil])
      obtain ⟨front, m, rfl⟩ := List.eq_nil_or_concat way |>.resolve_left hway
      obtain rfl : m = n := by simpa using hlast
      dsimp only
      rw [List.drop_left, List.concat_eq_append, List.foldl_concat, Option.filter_some, if_neg]
      simp [hn]
    · rfl

end FileSystem

end Composables
