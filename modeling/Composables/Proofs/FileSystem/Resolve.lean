import Composables.FileSystem.Disk
import Composables.Proofs.Outcome
import Composables.Proofs.Text.Split

/-
  Where paths lead. A path that leads somewhere leads to the place its components spell out, so two
  spellings of one path cannot lead to two files (`readText_same`).
-/

namespace Composables

/-! ## Segments and components -/

namespace Path

/-- An empty segment comes first in the empty path and in absolute ones, where others follow. -/
theorem segments_cases (p : Path) (h : p.text.isEmpty = false) :
    (p.isAbsolute = true ∧ ∃ s ss, p.segments = [] :: s :: ss) ∨
      (p.isAbsolute = false ∧ ∃ c cs ss, p.segments = (c :: cs) :: ss) := by
  unfold segments isAbsolute
  cases hcs : p.text.toList with
  | nil =>
      rw [String.toList_eq_nil_iff] at hcs
      rw [hcs] at h
      cases h
  | cons c cs =>
      by_cases hc : c = '/'
      · subst hc
        rw [Text.split, if_pos rfl]
        obtain ⟨s, ss, hsplit⟩ := List.exists_cons_of_ne_nil (Text.split_ne_nil '/' cs)
        exact .inl ⟨rfl, s, ss, congrArg _ hsplit⟩
      · obtain ⟨piece, pieces, hsplit⟩ := Text.split_cons_of_ne hc cs
        exact .inr ⟨by simpa using hc, c, piece, pieces, hsplit⟩

/-- A segment never stands for the root or for the dot in front. -/
theorem ofSegment?_cases (s : Segment) :
    Component.ofSegment? s = none ∨ Component.ofSegment? s = some .up ∨
    ∃ n, Component.ofSegment? s = some (.name n) := by
  unfold Component.ofSegment?
  split
  · exact .inl rfl
  · exact .inl rfl
  · exact .inr (.inl rfl)
  · exact .inr (.inr ⟨_, rfl⟩)

end Path

namespace FileSystem

open Path (Segment Component)

variable {fs : FileSystem} {p q : Path} {k k' : Place}

/-- The place a component leads to. -/
def follow (k : Place) : Component → Place
  | .root => []
  | .here => k
  | .up => k.dropLast
  | .name n => k ++ [n]

/-- The place that components spell out. -/
def place (fs : FileSystem) (cs : List Component) : Place := cs.foldl follow fs.current

/-- The place that a path spells out. -/
def placeOf (fs : FileSystem) (p : Path) : Place := fs.place p.components

theorem step_eq (k : Place) (s : Segment) :
    step k s = ((Component.ofSegment? s).map (follow k)).getD k := by
  unfold step
  rcases Path.ofSegment?_cases s with h | h | ⟨n, h⟩ <;> rw [h] <;> rfl

/-- Following segments is following the components they stand for. -/
theorem foldl_step (ss : List Segment) (k : Place) :
    ss.foldl step k = (ss.filterMap Component.ofSegment?).foldl follow k := by
  induction ss generalizing k with
  | nil => rfl
  | cons s ss ih =>
      rw [List.foldl_cons, ih, step_eq]
      cases hs : Component.ofSegment? s with
      | none => rw [List.filterMap_cons_none hs]; rfl
      | some c => rw [List.filterMap_cons_some hs]; rfl

/-- Going through directories is going from place to place. -/
theorem foldlM_enter {ss : List Segment} (h : ss.foldlM fs.enter k = .ok k') :
    k' = ss.foldl step k := by
  induction ss generalizing k with
  | nil => exact (Except.ok.inj h).symm
  | cons s ss ih =>
      obtain ⟨next, hnext, hrest⟩ := Outcome.bind_eq_ok.mp ((List.foldlM_cons ..).symm.trans h)
      have hstep : next = step k s := by
        unfold enter at hnext
        split at hnext
        · exact (Except.ok.inj hnext).symm
        · cases hnext
        · cases hnext
      rw [List.foldl_cons, ← hstep]
      exact ih hrest

/-- Behind a segment that is not empty, only a dot in front tells the components from what the
segments stand for. -/
theorem foldl_componentsOf (c : Char) (cs : Segment) (ss : List Segment) (k : Place) :
    (Path.componentsOf ((c :: cs) :: ss)).foldl follow k =
      (((c :: cs) :: ss).filterMap Component.ofSegment?).foldl follow k := by
  by_cases hdot : c :: cs = ['.']
  · rw [hdot]
    rfl
  · rw [Path.componentsOf]
    · simp
    · simp
    · exact hdot

/-- A path leads to the place that its components spell out, if it leads anywhere. -/
theorem place_of_resolve (h : fs.resolve p = .ok k) : k = fs.placeOf p := by
  unfold resolve at h
  split at h
  · cases h
  · rename_i hempty
    rw [foldlM_enter h, foldl_step, start, placeOf, place, Path.components]
    rcases p.segments_cases (by simpa using hempty) with ⟨habsolute, s, ss, hsegments⟩ |
      ⟨habsolute, c, cs, ss, hsegments⟩
    · rw [hsegments, if_pos habsolute]
      rfl
    · rw [hsegments, if_neg (by simp [habsolute]), foldl_componentsOf]

/-- Two spellings of one path lead to one place. -/
theorem placeOf_same (h : p.same q = true) : fs.placeOf p = fs.placeOf q := by
  rw [placeOf, placeOf, beq_iff_eq.mp h]

theorem find_eq_ok {n : Node} :
    fs.find p = .ok (k, n) ↔ fs.resolve p = .ok k ∧ fs.node? k = some n := by
  unfold find
  rw [Outcome.bind_eq_ok]
  constructor
  · rintro ⟨k', hk', h⟩
    split at h
    · rename_i n' hn'
      obtain ⟨rfl, rfl⟩ := Prod.mk.inj (Except.ok.inj h)
      exact ⟨hk', hn'⟩
    · cases h
  · rintro ⟨hk, hn⟩
    refine ⟨k, hk, ?_⟩
    rw [hn]
    rfl

theorem node_of_readText {text : String} (h : fs.readText p = .ok text) :
    ∃ k, fs.resolve p = .ok k ∧ fs.node? k = some (.file (.text text)) := by
  obtain ⟨⟨k, node⟩, hfind, hread⟩ := Outcome.bind_eq_ok.mp h
  split at hread
  · rename_i hfile
    obtain ⟨rfl, rfl⟩ := Prod.mk.inj hfile
    obtain rfl := Except.ok.inj hread
    exact ⟨_, find_eq_ok.mp hfind⟩
  · cases hread
  · cases hread

/-- Two paths to one place lead to the same text. -/
theorem text_of_placeOf (h : fs.placeOf p = fs.placeOf q) {text text' : String}
    (hp : fs.readText p = .ok text) (hq : fs.readText q = .ok text') : text = text' := by
  obtain ⟨k, hk, hnode⟩ := node_of_readText hp
  obtain ⟨k', hk', hnode'⟩ := node_of_readText hq
  rw [place_of_resolve hk, h, ← place_of_resolve hk', hnode'] at hnode
  cases hnode
  rfl

/-- Two spellings of one path lead to the same text. -/
theorem readText_same (h : p.same q = true) {text text' : String} (hp : fs.readText p = .ok text)
    (hq : fs.readText q = .ok text') : text = text' :=
  text_of_placeOf (placeOf_same h) hp hq

end FileSystem

end Composables
