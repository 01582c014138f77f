import Composables.Module.Specifier
import Composables.Proofs.FileSystem.Walk
import Mathlib.Data.List.DropRight

/-
  Absolute paths without detours. What a path is joined with is walked from its directory on
  (`components_join`), and what is left when each `..` has taken away the component before it does
  not depend on more than how far the way climbs (`foldl_follow`).
-/

namespace Composables.Path

variable {p q dir : Path} {n : String}

/-! ## Components of absolute paths -/

theorem isAbsolute_iff : p.isAbsolute = true ↔ ∃ cs, p.text.toList = '/' :: cs := by
  rw [isAbsolute, beq_iff_eq, List.head?_eq_some_iff]

/-- Of an absolute path, all segments count. -/
theorem components_of_isAbsolute (h : p.isAbsolute) :
    p.components = .root :: p.segments.filterMap Component.ofSegment? := by
  obtain ⟨cs, hcs⟩ := isAbsolute_iff.mp h
  obtain ⟨s, ss, hsplit⟩ := List.exists_cons_of_ne_nil (Text.split_ne_nil '/' cs)
  have hsegments : p.segments = [] :: s :: ss := by
    rw [segments, hcs, Text.split, if_pos rfl, hsplit]
  rw [components, hsegments]
  rfl

theorem isAbsolute_ofSegments {s : Segment} {ss : List Segment} :
    (ofSegments ([] :: s :: ss)).isAbsolute := by
  rw [isAbsolute_iff]
  exact ⟨Text.join ['/'] (s :: ss), String.toList_ofList⟩

theorem components_ofSegments {s : Segment} {ss : List Segment} (h : ∀ t ∈ s :: ss, '/' ∉ t) :
    (ofSegments ([] :: s :: ss)).components =
      .root :: (s :: ss).filterMap Component.ofSegment? := by
  have hslash : ∀ t ∈ [] :: s :: ss, '/' ∉ t := List.forall_mem_cons.mpr ⟨List.not_mem_nil, h⟩
  rw [components, segments, ofSegments, String.toList_ofList,
    Text.split_join (List.cons_ne_nil _ _) hslash]
  rfl

/-! ## Joined paths -/

theorem isAbsolute_join (hdir : dir.isAbsolute) : (dir.join p).isAbsolute := by
  obtain ⟨cs, hcs⟩ := isAbsolute_iff.mp hdir
  unfold join
  split
  · assumption
  · rw [isAbsolute_iff]
    split
    · exact ⟨cs ++ p.text.toList, by rw [String.toList_append, hcs, List.cons_append]⟩
    · exact ⟨cs ++ '/' :: p.text.toList, by simp [hcs]⟩

/-- A relative path is walked from the directory on. -/
theorem components_join (hdir : dir.isAbsolute) (hp : p.isAbsolute = false) :
    (dir.join p).components = dir.components ++ p.segments.filterMap Component.ofSegment? := by
  rw [components_of_isAbsolute hdir, components_of_isAbsolute (isAbsolute_join hdir),
    List.cons_append, ← List.filterMap_append]
  obtain ⟨cs, hcs⟩ := isAbsolute_iff.mp hdir
  have hnonempty : dir.text.isEmpty = false := by
    rw [← Bool.not_eq_true, String.isEmpty_iff]
    rintro hempty
    rw [hempty] at hcs
    cases hcs
  rw [join, hp, if_neg Bool.false_ne_true, hnonempty, Bool.false_or]
  split
  · rename_i hslash
    obtain ⟨front, hfront⟩ := List.getLast?_eq_some_iff.mp (beq_iff_eq.mp hslash)
    have hjoined : (⟨dir.text ++ p.text⟩ : Path).segments = Text.split '/' front ++ p.segments := by
      rw [segments, String.toList_append, hfront, List.append_assoc, List.singleton_append,
        Text.split_append_sep]
      rfl
    have hsegments : dir.segments = Text.split '/' front ++ [[]] := by
      rw [segments, hfront, Text.split_append_sep]
      rfl
    rw [hjoined, hsegments, List.append_assoc, List.filterMap_append, List.filterMap_append]
    rfl
  · have hjoined : (⟨dir.text ++ "/" ++ p.text⟩ : Path).segments = dir.segments ++ p.segments := by
      rw [segments, String.toList_append, String.toList_append, List.append_assoc]
      exact Text.split_append_sep _ _
    rw [hjoined]

/-! ## Directories -/

theorem dropIdle_concat (ss : List Segment) (s : Segment) :
    dropIdle (ss ++ [s]) =
      if (Component.ofSegment? s).isNone then dropIdle ss else ss ++ [s] :=
  List.rdropWhile_concat _ ss s

theorem dropIdle_subset (ss : List Segment) : dropIdle ss ⊆ ss :=
  (List.rdropWhile_prefix _ ss).subset

theorem filterMap_dropIdle (ss : List Segment) :
    (dropIdle ss).filterMap Component.ofSegment? = ss.filterMap Component.ofSegment? := by
  induction ss using List.reverseRecOn with
  | nil => rfl
  | append_singleton ss s ih =>
      rw [dropIdle_concat]
      split
      · rename_i hnone
        rw [ih, List.filterMap_append,
          List.filterMap_cons_none (Option.isNone_iff_eq_none.mp hnone), List.filterMap_nil,
          List.append_nil]
      · rfl

/-- The last segment that is left stands for a component. -/
theorem dropIdle_last {ss front : List Segment} {s : Segment} (h : dropIdle ss = front ++ [s]) :
    ∃ c, Component.ofSegment? s = some c := by
  induction ss using List.reverseRecOn with
  | nil => simp [dropIdle] at h
  | append_singleton ss s' ih =>
      rw [dropIdle_concat] at h
      split at h
      · exact ih h
      · rename_i hsome
        obtain ⟨-, hs⟩ := List.append_inj' h rfl
        rw [← List.singleton_inj.mp hs, ← Option.ne_none_iff_exists']
        rwa [Option.isNone_iff_eq_none] at hsome

/-- The directory of a file has the segments in front of the file's name. -/
theorem directory_eq {rest front : List Segment} {s : Segment}
    (hsegments : p.segments = [] :: rest) (hrest : dropIdle rest = front ++ [s]) :
    p.directory =
      if (dropIdle front).isEmpty then ⟨"/"⟩ else ofSegments ([] :: dropIdle front) := by
  have hparent : p.parent? = some
      (if (dropIdle front).isEmpty then ⟨"/"⟩ else ofSegments ([] :: dropIdle front)) := by
    unfold parent?
    rw [hsegments]
    dsimp only
    split
    · rename_i hnil
      rw [hrest] at hnil
      simp at hnil
    · rw [hrest, List.dropLast_concat, List.isEmpty_nil, Bool.true_and]
      split <;> rfl
  rw [directory, hparent, Option.getD_some]

/-- A file lies in its directory. -/
theorem components_directory (h : p.isAbsolute) (hn : p.fileName? = some n) :
    p.directory.isAbsolute ∧ p.components = p.directory.components ++ [.name n] := by
  obtain ⟨cs, hcs⟩ := isAbsolute_iff.mp h
  have hsegments : p.segments = [] :: Text.split '/' cs := by
    rw [segments, hcs, Text.split, if_pos rfl]
  have hlast := fileName?_eq_some.mp hn
  rw [components_of_isAbsolute h, hsegments, List.filterMap_cons_none rfl, ← filterMap_dropIdle]
    at hlast ⊢
  -- the name is the last segment that is not idle
  rcases List.eq_nil_or_concat (dropIdle (Text.split '/' cs)) with hnil | ⟨front, s, hfront⟩
  · rw [hnil] at hlast
    cases hlast
  · rw [List.concat_eq_append] at hfront
    obtain ⟨c, hc⟩ := dropIdle_last hfront
    rw [hfront, List.filterMap_append, List.filterMap_cons_some hc, List.filterMap_nil,
      ← List.cons_append] at hlast ⊢
    obtain rfl : c = .name n := by
      rwa [List.getLast?_concat, Option.some.injEq] at hlast
    rw [directory_eq hsegments hfront, ← filterMap_dropIdle front]
    cases hdrop : dropIdle front with
    | nil => exact ⟨by decide, rfl⟩
    | cons s' ss' =>
        have hslash : ∀ t ∈ s' :: ss', '/' ∉ t := by
          intro t ht
          rw [← hdrop] at ht
          have hmem : t ∈ dropIdle (Text.split '/' cs) := by
            rw [hfront]
            exact List.mem_append_left _ (dropIdle_subset front ht)
          exact Text.not_mem_of_mem_split t (dropIdle_subset _ hmem)
        rw [if_neg (by simp), components_ofSegments hslash]
        exact ⟨isAbsolute_ofSegments, rfl⟩

/-! ## Ways -/

open FileSystem (follow)

/-- The place that an absolute path spells out: each `..` is taken away with the component before
it, and at the root by itself. -/
def normal (p : Path) : Place := p.components.foldl follow []

/-- How far a way climbs above the place where it begins. -/
def rise : List Component → Nat
  | [] => 0
  | .up :: way => rise way + 1
  | .name _ :: way => rise way - 1
  | _ :: way => rise way

variable {way : List Component}

/-- A way takes away as much of the place where it begins as it climbs, and what it adds depends on
the way alone. -/
theorem foldl_follow (h : .root ∉ way) (k : Place) :
    way.foldl follow k = k.take (k.length - rise way) ++ way.foldl follow [] := by
  induction way generalizing k with
  | nil => simp [rise]
  | cons c way ih =>
      rw [List.mem_cons, not_or] at h
      rw [List.foldl_cons, List.foldl_cons, ih h.2 (follow k c)]
      cases c with
      | root => exact absurd rfl h.1
      | here => rfl
      | up =>
          have htake : k.dropLast.take (k.dropLast.length - rise way) =
              k.take (k.length - (rise way + 1)) := by
            rw [List.dropLast_eq_take, List.take_take, List.length_take]
            congr 1
            omega
          exact congrArg (· ++ way.foldl follow []) htake
      | name n =>
          have htake : (k ++ [n]).take ((k ++ [n]).length - rise way) =
              k.take (k.length - (rise way - 1)) ++ [n].take (1 - rise way) := by
            rw [List.take_append, List.length_append, List.length_singleton]
            congr 1
            · rw [List.take_eq_take_iff]
              omega
            · congr 1
              omega
          rw [ih h.2 (follow [] (.name n)), ← List.append_assoc]
          exact congrArg (· ++ way.foldl follow []) htake

theorem foldl_up (count : Nat) (k : Place) :
    (List.replicate count Component.up).foldl follow k = k.take (k.length - count) := by
  induction count generalizing k with
  | zero => simp
  | succ count ih =>
      rw [List.replicate_succ, List.foldl_cons, ih, follow, List.dropLast_eq_take, List.take_take,
        List.length_take]
      congr 1
      omega

/-- No component adds more than one name, and `..` adds none. -/
theorem length_foldl_follow (way : List Component) (k : Place) :
    (way.foldl follow k).length + way.count .up ≤ k.length + way.length := by
  induction way generalizing k with
  | nil => simp
  | cons c way ih =>
      have hrest := ih (follow k c)
      have hstep : (follow k c).length + (if c == .up then 1 else 0) ≤ k.length + 1 := by
        cases c <;> simp [follow]
      rw [List.foldl_cons, List.length_cons, List.count_cons]
      omega

/-- Names are added to a place as they are. -/
theorem foldl_of_not_mem_up (hnames : ∀ c ∈ way, ∃ n, c = .name n) (k : Place) :
    ∃ names : List String, names.length = way.length ∧ way.foldl follow k = k ++ names := by
  induction way generalizing k with
  | nil => exact ⟨[], rfl, by simp⟩
  | cons c way ih =>
      obtain ⟨⟨n, rfl⟩, hrest⟩ := List.forall_mem_cons.mp hnames
      obtain ⟨names, hlength, hfoldl⟩ := ih hrest (k ++ [n])
      refine ⟨n :: names, by rw [List.length_cons, List.length_cons, hlength], ?_⟩
      rw [List.foldl_cons, follow, hfoldl, List.append_assoc, List.singleton_append]

/-- Going up once for each component of a way leads back to where it began if the way is made of
names, and further up otherwise. -/
theorem foldl_back (hroot : .root ∉ way) (k : Place) :
    ∃ m, (List.replicate way.length Component.up).foldl follow (way.foldl follow k) = k.take m ∧
      ((∀ c ∈ way, ∃ n, c = .name n) → m = k.length) ∧ (.up ∈ way → k ≠ [] → m < k.length) := by
  by_cases hnames : ∀ c ∈ way, ∃ n, c = .name n
  · obtain ⟨names, hlength, hfoldl⟩ := foldl_of_not_mem_up hnames k
    refine ⟨k.length, ?_, fun _ => rfl, fun hup => ?_⟩
    · rw [foldl_up, hfoldl, List.length_append, hlength, Nat.add_sub_cancel, List.take_left,
        List.take_length]
    · obtain ⟨n, hn⟩ := hnames _ hup
      cases hn
  · refine ⟨min ((way.foldl follow k).length - way.length) (k.length - rise way), ?_,
      fun h => absurd h hnames, fun hup hk => ?_⟩
    · have hadded := length_foldl_follow way []
      have hfoldl := foldl_follow hroot k
      have hwithin : (way.foldl follow k).length - way.length ≤
          (k.take (k.length - rise way)).length := by
        rw [hfoldl, List.length_append]
        simp only [List.length_nil] at hadded
        omega
      rw [foldl_up]
      generalize (way.foldl follow k).length - way.length = count at hwithin ⊢
      rw [hfoldl, List.take_append_of_le_length hwithin, List.take_take]
    · -- a step up in the way takes a name away, and one more is spent on it going back
      have hcount := List.count_pos_iff.mpr hup
      have hlength := length_foldl_follow way k
      have hpos := List.length_pos_of_ne_nil hk
      omega

/-- From a place further up, a way comes to the same place only if it climbs above both. -/
theorem foldl_take_eq_iff (hroot : .root ∉ way) {k : Place} {m : Nat} (hm : m < k.length) :
    way.foldl follow (k.take m) = way.foldl follow k ↔ k.length ≤ rise way := by
  rw [foldl_follow hroot (k.take m), foldl_follow hroot k, List.append_left_inj, List.take_take,
    List.take_eq_take_iff, List.length_take]
  omega

end Composables.Path
