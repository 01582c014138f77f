import Composables.Proofs.Path.Normal

/-
  Where specifiers lead. The ways to two directories part at a fork, and a specifier goes up once
  for each component of its source's directory behind it. That leads to the directory of the target if
  these components are names, and otherwise only from some forks (`Path.foldl_wayTo`). The text of a
  specifier is cut into the steps of its way again (`segments_specifier`), so what it names follows
  from that (`specifier_leads_back`).
-/

namespace Composables

open FileSystem (follow)
open Path (Component)

/-! ## Ways between directories -/

/-- A step that a specifier can spell: a step up, or into a file or directory. -/
def Path.Component.IsStep (c : Component) : Prop := c = .up ∨ ∃ n, Path.IsName n ∧ c = .name n

/-- Two ways after what they begin with together. -/
structure Fork where
  common : List Component
  target : List Component
  base : List Component
deriving DecidableEq

/-- Parts two ways where they first differ. -/
def Fork.of : List Component → List Component → Fork
  | c :: target, d :: base =>
    if c = d then
      let fork := Fork.of target base
      { fork with common := c :: fork.common }
    else ⟨[], c :: target, d :: base⟩
  | target, base => ⟨[], target, base⟩

namespace Fork

variable {target base : List Component}

theorem of_eq (target base : List Component) :
    target = (Fork.of target base).common ++ (Fork.of target base).target ∧
      base = (Fork.of target base).common ++ (Fork.of target base).base := by
  fun_induction Fork.of target base with
  | case1 target c base fork ih => exact ⟨congrArg (c :: ·) ih.1, congrArg (c :: ·) ih.2⟩
  | case2 => exact ⟨rfl, rfl⟩
  | case3 => exact ⟨rfl, rfl⟩

theorem climb_eq (target base : List Component) :
    Path.climb target base =
      Path.descend (Fork.of target base).target (Fork.of target base).base := by
  fun_induction Fork.of target base with
  | case1 target c base fork ih => rw [Path.climb, if_pos rfl, ih]
  | case2 c target d base hne => rw [Path.climb, if_neg hne]
  | case3 target base hcons =>
      rw [Path.climb]
      exact hcons

end Fork

theorem descend_nil (base : List Component) :
    Path.descend [] base = some (List.replicate base.length .up) := by
  induction base with
  | nil => rfl
  | cons d base ih =>
      rw [Path.descend, ih]
      rfl

/-- Behind the fork a way goes up as often as the base goes on, and then along the target. There is
none to a target where the base goes up at the fork. -/
theorem descend_eq {target base : List Component} (hbase : ∀ c ∈ base, c.IsStep) :
    Path.descend target base =
      if base.head? = some .up ∧ target ≠ [] then none
      else some (List.replicate base.length .up ++ target) := by
  cases target with
  | nil => rw [descend_nil, if_neg (by simp), List.append_nil]
  | cons c target =>
      cases base with
      | nil => rfl
      | cons d base =>
          rcases hbase d List.mem_cons_self with rfl | ⟨n, _, rfl⟩
          · rfl
          · rw [Path.descend, if_neg (by simp), List.map_const']
            · rfl
            all_goals simp

/-- Going up once for each component of the base does no harm if all of them are names, or if the
target climbs above all of what is common. Where no way is found, the directories have to be one. -/
def Fork.Harmless (f : Fork) : Prop :=
  let place := f.common.foldl follow []
  .up ∉ f.base ∨
    if f.base.head? = some .up ∧ f.target ≠ [] then
      f.base.foldl follow place = f.target.foldl follow place
    else place.length ≤ Path.rise f.target

namespace Path

variable {source target : Path} {m n : String}

/-- The components of an absolute path behind the root are steps. -/
theorem exists_steps (h : target.isAbsolute) :
    ∃ cs, target.components = .root :: cs ∧ ∀ c ∈ cs, c.IsStep := by
  refine ⟨_, components_of_isAbsolute h, fun c hc => ?_⟩
  obtain ⟨s, hs, hsc⟩ := List.mem_filterMap.mp hc
  rcases ofSegment?_cases s with hnone | hup | ⟨n, hn⟩
  · rw [hnone] at hsc
    cases hsc
  · rw [hup] at hsc
    exact .inl (Option.some.inj hsc).symm
  · obtain rfl := Option.some.inj (hn.symm.trans hsc)
    exact .inr ⟨n, isName_of_mem hs hn, rfl⟩

/-- The way from the directory of one file to that of another; it is empty if there is none. -/
def wayTo (source target : Path) : List Component :=
  (target.directory.relativeTo? source.directory).getD []

/-- The fork of the directories of two files. -/
def forkTo (source target : Path) : Fork :=
  Fork.of target.directory.components source.directory.components

theorem forkTo_steps (hs : source.directory.isAbsolute) (ht : target.directory.isAbsolute) :
    (∀ c ∈ (forkTo source target).base, c.IsStep) ∧
      ∀ c ∈ (forkTo source target).target, c.IsStep := by
  obtain ⟨base, hbase, hsteps⟩ := exists_steps hs
  obtain ⟨way, hway, hsteps'⟩ := exists_steps ht
  have hfork : forkTo source target =
      { Fork.of way base with common := .root :: (Fork.of way base).common } := by
    rw [forkTo, hbase, hway, Fork.of, if_pos rfl]
  obtain ⟨hway, hbase⟩ := Fork.of_eq way base
  rw [hfork]
  refine ⟨fun c hc => hsteps c ?_, fun c hc => hsteps' c ?_⟩
  · rw [hbase]
    exact List.mem_append_right _ hc
  · rw [hway]
    exact List.mem_append_right _ hc

/-- The way goes up from the base to the fork, and then along the target. -/
theorem wayTo_eq (hs : source.directory.isAbsolute) (ht : target.directory.isAbsolute) :
    wayTo source target =
      if (forkTo source target).base.head? = some .up ∧ (forkTo source target).target ≠ [] then []
      else
        List.replicate (forkTo source target).base.length .up ++ (forkTo source target).target := by
  rw [wayTo, relativeTo?, if_pos (by rw [hs, ht]), Fork.climb_eq, ← forkTo,
    descend_eq (forkTo_steps hs ht).1]
  split <;> rfl

theorem wayTo_steps (hs : source.directory.isAbsolute) (ht : target.directory.isAbsolute) :
    ∀ c ∈ wayTo source target, c.IsStep := by
  rw [wayTo_eq hs ht]
  split
  · exact fun c hc => absurd hc List.not_mem_nil
  · intro c hc
    rcases List.mem_append.mp hc with hc | hc
    · exact .inl (List.eq_of_mem_replicate hc)
    · exact (forkTo_steps hs ht).2 c hc

/-- The way leads to the directory of the target exactly if the fork is harmless. -/
theorem foldl_wayTo (hs : source.directory.isAbsolute) (ht : target.directory.isAbsolute) :
    (wayTo source target).foldl follow source.directory.normal = target.directory.normal ↔
      (forkTo source target).Harmless := by
  obtain ⟨hbase, htarget⟩ := forkTo_steps hs ht
  obtain ⟨htarget_eq, hbase_eq⟩ :=
    Fork.of_eq target.directory.components source.directory.components
  rw [← forkTo] at htarget_eq hbase_eq
  rw [wayTo_eq hs ht, normal, normal, htarget_eq, hbase_eq, List.foldl_append, List.foldl_append,
    Fork.Harmless]
  generalize forkTo source target = f at *
  have hroot : ∀ cs : List Component, (∀ c ∈ cs, c.IsStep) → .root ∉ cs := by
    intro cs hcs hmem
    rcases hcs .root hmem with h | ⟨_, _, h⟩ <;> cases h
  generalize f.common.foldl follow [] = place
  by_cases hnone : f.base.head? = some .up ∧ f.target ≠ []
  · -- no way is found, so the directories have to be one
    have hup : .up ∈ f.base := List.mem_of_head? hnone.1
    rw [if_pos hnone, if_pos hnone, List.foldl_nil, or_iff_right (not_not_intro hup)]
  · rw [if_neg hnone, if_neg hnone, List.foldl_append]
    obtain ⟨m, hm, hnames, hup⟩ := foldl_back (hroot f.base hbase) place
    rw [hm]
    by_cases hmem : .up ∈ f.base
    · -- the way leaves from above the fork, and at the root it is as if it did not
      rw [or_iff_right (not_not_intro hmem)]
      by_cases hplace : place = []
      · subst hplace
        simp
      · exact foldl_take_eq_iff (hroot f.target htarget) (hup hmem hplace)
    · have hall : ∀ c ∈ f.base, ∃ n, c = .name n := by
        intro c hc
        rcases hbase c hc with rfl | ⟨n, _, rfl⟩
        · exact absurd hc hmem
        · exact ⟨n, rfl⟩
      rw [hnames hall, List.take_length]
      exact ⟨fun _ => .inl hmem, fun _ => rfl⟩

end Path

/-! ## Specifiers -/

/-- The extension that a file name loses in a specifier. -/
def droppedExtension (file : String) : String :=
  if ".tsx".toList.isSuffixOf file.toList then ".tsx"
  else if ".ts".toList.isSuffixOf file.toList then ".ts" else ""

/-- A text that names a module by a place relative to the importing one. -/
def IsRelative (text : String) : Prop :=
  ['.', '/'] <+: text.toList ∨ ['.', '.', '/'] <+: text.toList

instance (text : String) : Decidable (IsRelative text) := inferInstanceAs (Decidable (_ ∨ _))

theorem dropExtension_append (file : String) :
    dropExtension file ++ droppedExtension file = file := by
  rw [← String.toList_inj, String.toList_append]
  unfold dropExtension droppedExtension Text.dropSuffix?
  split_ifs with htsx hts hts
  · rw [String.toList_ofList]
    exact List.suffix_iff_eq_append.mp (List.isSuffixOf_iff_suffix.mp htsx)
  · rw [String.toList_ofList]
    exact List.suffix_iff_eq_append.mp (List.isSuffixOf_iff_suffix.mp htsx)
  · rw [String.toList_ofList]
    exact List.suffix_iff_eq_append.mp (List.isSuffixOf_iff_suffix.mp hts)
  · exact List.append_nil _

theorem join_append {sep : List Char} (pieces : List (List Char)) (last more : List Char) :
    Text.join sep (pieces ++ [last]) ++ more = Text.join sep (pieces ++ [last ++ more]) := by
  induction pieces with
  | nil => rfl
  | cons piece pieces ih =>
      rw [List.cons_append, List.cons_append, Text.join_cons_of_ne_nil (by simp),
        Text.join_cons_of_ne_nil (by simp), List.append_assoc, ih]

variable {source target : Path} {n : String}

theorem filterMap_step? {way : List Component} (h : ∀ c ∈ way, c.IsStep) :
    (∀ x ∈ way.filterMap Component.step?, '/' ∉ x.toList) ∧
      ((way.filterMap Component.step?).map String.toList).filterMap Component.ofSegment? = way := by
  induction way with
  | nil => simp
  | cons c way ih =>
      obtain ⟨hc, hway⟩ := List.forall_mem_cons.mp h
      obtain ⟨x, hx, hslash, hsegment⟩ : ∃ x, c.step? = some x ∧ '/' ∉ x.toList ∧
          Component.ofSegment? x.toList = some c := by
        rcases hc with rfl | ⟨n, hn, rfl⟩
        · exact ⟨"..", rfl, by decide, rfl⟩
        · exact ⟨n, rfl, hn.slash, hn.segment⟩
      rw [List.filterMap_cons_some hx, List.map_cons, List.filterMap_cons_some hsegment,
        (ih hway).2]
      exact ⟨List.forall_mem_cons.mpr ⟨hslash, (ih hway).1⟩, rfl⟩

theorem isName_fileName (ht : target.isAbsolute) (hn : target.fileName? = some n) :
    Path.IsName n := by
  obtain ⟨cs, hcs, hsteps⟩ := Path.exists_steps ht
  have hlast := Path.fileName?_eq_some.mp hn
  have hmem : .name n ∈ cs := by
    have hmem := List.mem_of_getLast? hlast
    rw [hcs] at hmem
    simpa using hmem
  rcases hsteps _ hmem with h | ⟨n', hn', h⟩
  · cases h
  · obtain rfl := Component.name.inj h
    exact hn'

/-- The steps of a specifier and the extension that it lost are cut into the way and the name of the
file. -/
theorem specifierSteps_cut (hs : source.directory.isAbsolute) (ht : target.directory.isAbsolute)
    (hname : Path.IsName n) (hn : target.fileName? = some n) :
    ∃ pieces : List Path.Segment, pieces ≠ [] ∧ (∀ l ∈ pieces, '/' ∉ l) ∧
      pieces.filterMap Component.ofSegment? = Path.wayTo source target ++ [.name n] ∧
      ("/".intercalate (specifierSteps source target)).toList ++ (droppedExtension n).toList =
        Text.join ['/'] pieces := by
  have hsteps := Path.wayTo_steps hs ht
  obtain ⟨hslash, hway⟩ := filterMap_step? hsteps
  refine ⟨((Path.wayTo source target).filterMap Component.step?).map String.toList ++ [n.toList],
    by simp, ?_, ?_, ?_⟩
  · intro l hl
    rcases List.mem_append.mp hl with hl | hl
    · obtain ⟨x, hx, rfl⟩ := List.mem_map.mp hl
      exact hslash x hx
    · rw [List.mem_singleton.mp hl]
      exact hname.slash
  · rw [List.filterMap_append, hway, List.filterMap_cons_some hname.segment, List.filterMap_nil]
  · have hfile : n.toList = (dropExtension n).toList ++ (droppedExtension n).toList := by
      rw [← String.toList_append, dropExtension_append]
    rw [specifierSteps, hn, Option.getD_some, String.toList_intercalate, List.map_append,
      List.map_singleton, ← Path.wayTo, hfile, ← join_append, Text.join_eq_intercalate]
    rfl

/-- What opens a specifier: nothing in front of two dots, and otherwise the place where it is. -/
theorem specifier_eq (source target : Path) (jsExtension : Bool) :
    (specifier source target jsExtension).toList =
      (if ['.', '.'] <+: ("/".intercalate (specifierSteps source target)).toList then []
        else ['.', '/']) ++ ("/".intercalate (specifierSteps source target)).toList ++
        if jsExtension then ".js".toList else [] := by
  rw [specifier]
  generalize "/".intercalate (specifierSteps source target) = steps
  have hstarts : steps.startsWith ".." ↔ ['.', '.'] <+: steps.toList :=
    String.startsWith_string_iff
  rw [String.toList_append, apply_ite String.toList, apply_ite String.toList, String.toList_append]
  by_cases hdots : steps.startsWith ".."
  · rw [if_pos hdots, if_pos (hstarts.mp hdots)]
    rfl
  · rw [if_neg hdots, if_neg (mt hstarts.mpr hdots)]
    rfl

/-- A specifier and the extension that it lost are walked along the way to the file. -/
theorem segments_specifier (hs : source.directory.isAbsolute) (ht : target.directory.isAbsolute)
    (hname : Path.IsName n) (hn : target.fileName? = some n) :
    let p : Path := ⟨specifier source target false ++ droppedExtension n⟩
    p.isAbsolute = false ∧
      p.segments.filterMap Component.ofSegment? = Path.wayTo source target ++ [.name n] := by
  obtain ⟨pieces, hne, hslash, hpieces, hjoin⟩ := specifierSteps_cut hs ht hname hn
  intro p
  have htext : p.text.toList = (if ['.', '.'] <+:
      ("/".intercalate (specifierSteps source target)).toList then [] else ['.', '/']) ++
        Text.join ['/'] pieces := by
    show (specifier source target false ++ droppedExtension n).toList = _
    rw [String.toList_append, specifier_eq, if_neg Bool.false_ne_true, List.append_nil,
      List.append_assoc, hjoin]
  split at htext
  · rename_i hdots
    have hopens : ['.', '.'] <+: p.text.toList := by
      rw [htext, List.nil_append, ← hjoin]
      exact hdots.trans (List.prefix_append _ _)
    obtain ⟨rest, hrest⟩ := hopens
    rw [Path.segments, htext, List.nil_append, Text.split_join hne hslash]
    exact ⟨by rw [Path.isAbsolute, ← hrest]; rfl, hpieces⟩
  · have hcut : Text.split '/' (['.'] ++ '/' :: Text.join ['/'] pieces) = ['.'] :: pieces := by
      rw [Text.split_append_sep, Text.split_join hne hslash]
      rfl
    rw [Path.isAbsolute, Path.segments, htext]
    exact ⟨rfl, (congrArg (List.filterMap Component.ofSegment?) hcut).trans hpieces⟩

/-! ## What opens a specifier -/

/-- Behind a first step comes nothing, or a slash. -/
theorem intercalate_cons (step : String) (steps : List String) :
    ∃ tail, ("/".intercalate (step :: steps)).toList = step.toList ++ tail ∧
      (steps = [] ∧ tail = [] ∨ steps ≠ [] ∧ ∃ more, tail = '/' :: more) := by
  cases steps with
  | nil => exact ⟨[], by simp, .inl ⟨rfl, rfl⟩⟩
  | cons next steps =>
      refine ⟨'/' :: ("/".intercalate (next :: steps)).toList, ?_,
        .inr ⟨List.cons_ne_nil _ _, _, rfl⟩⟩
      simp [String.toList_intercalate]

/-- No step begins with two dots for what comes behind it. -/
theorem dots_prefix_iff {step tail : List Char} (h : tail = [] ∨ ∃ more, tail = '/' :: more) :
    ['.', '.'] <+: step ++ tail ↔ ['.', '.'] <+: step := by
  rcases h with rfl | ⟨more, rfl⟩
  · rw [List.append_nil]
  · rcases step with _ | ⟨a, _ | ⟨b, step⟩⟩ <;> simp [List.cons_prefix_cons]

theorem up_prefix_iff {step tail : List Char} (hslash : '/' ∉ step) (hdots : ['.', '.'] <+: step) :
    ['.', '.', '/'] <+: step ++ tail ↔ step = ['.', '.'] ∧ tail.head? = some '/' := by
  obtain ⟨rest, rfl⟩ := hdots
  cases rest with
  | nil => cases tail <;> simp [List.cons_prefix_cons, eq_comm]
  | cons c rest =>
      have hc : '/' ≠ c := by
        rintro rfl
        simp at hslash
      simp [List.cons_prefix_cons, hc]

theorem specifierSteps_eq_cons (hs : source.directory.isAbsolute)
    (ht : target.directory.isAbsolute) (hname : Path.IsName n) (hn : target.fileName? = some n) :
    ∃ step steps, specifierSteps source target = step :: steps ∧ '/' ∉ step.toList ∧
      ((Path.wayTo source target).head? = some .up ↔ step = ".." ∧ steps ≠ []) := by
  have hfile : '/' ∉ (dropExtension n).toList := by
    have hslash := hname.slash
    rw [← dropExtension_append n, String.toList_append, List.mem_append, not_or] at hslash
    exact hslash.1
  have hsteps := Path.wayTo_steps hs ht
  rw [specifierSteps, hn, Option.getD_some, ← Path.wayTo]
  cases hway : Path.wayTo source target with
  | nil => exact ⟨dropExtension n, [], rfl, hfile, by simp⟩
  | cons c way =>
      rw [hway] at hsteps
      rcases hsteps c List.mem_cons_self with rfl | ⟨x, hx, rfl⟩
      · exact ⟨"..", way.filterMap Component.step? ++ [dropExtension n], rfl, by decide, by simp⟩
      · refine ⟨x, way.filterMap Component.step? ++ [dropExtension n], rfl, hx.slash, ?_⟩
        have hne : x ≠ ".." := by
          rintro rfl
          cases hx.segment
        simp [hne]

/-- A specifier is relative if its way goes up first, and else if its first step does not begin
with two dots. -/
theorem isRelative_specifier (hs : source.directory.isAbsolute) (ht : target.directory.isAbsolute)
    (hname : Path.IsName n) (hn : target.fileName? = some n) (jsExtension : Bool) :
    IsRelative (specifier source target jsExtension) ↔
      (Path.wayTo source target).head? = some .up ∨
        ∀ step ∈ (specifierSteps source target).head?, ¬ ['.', '.'] <+: step.toList := by
  obtain ⟨step, steps, hcons, hslash, hup⟩ := specifierSteps_eq_cons hs ht hname hn
  obtain ⟨tail, htail, hcases⟩ := intercalate_cons step steps
  have hopens : ['.', '.'] <+: ("/".intercalate (step :: steps)).toList ↔
      ['.', '.'] <+: step.toList := by
    rw [htail]
    exact dots_prefix_iff (hcases.imp (·.2) (·.2))
  rw [hup, IsRelative, specifier_eq, hcons, List.head?_cons]
  simp only [Option.mem_some_iff, forall_eq']
  -- nothing is put in front of two dots, so these have to be a step up
  by_cases hdots : ['.', '.'] <+: step.toList
  · have hbeside (more : List Char) : ¬ ['.', '/'] <+: step.toList ++ more := by
      obtain ⟨rest, hrest⟩ := hdots
      rw [← hrest]
      rintro ⟨_, h⟩
      cases h
    have hmore : (tail ++ if jsExtension then ".js".toList else []).head? = some '/' ↔
        steps ≠ [] := by
      rcases hcases with ⟨rfl, rfl⟩ | ⟨hne, more, rfl⟩
      · cases jsExtension <;> decide
      · exact iff_of_true rfl hne
    rw [if_pos (hopens.mpr hdots), htail, List.nil_append, List.append_assoc,
      or_iff_right (hbeside _), or_iff_left (not_not_intro hdots), ← hmore, ← String.toList_inj]
    exact up_prefix_iff hslash hdots
  · rw [if_neg (mt hopens.mp hdots)]
    refine iff_of_true (.inl ?_) (.inr hdots)
    exact (List.prefix_append _ _).trans (List.prefix_append _ _)

/-! ## Where specifiers lead -/

/-- Joined to the directory of the source, a specifier leads to the target if its way leads to the
target's directory. -/
theorem normal_join_specifier {m : String} (hs : source.isAbsolute) (ht : target.isAbsolute)
    (hm : source.fileName? = some m) (hn : target.fileName? = some n) :
    (source.directory.join ⟨specifier source target false ++ droppedExtension n⟩).normal =
        target.normal ↔ (Path.forkTo source target).Harmless := by
  obtain ⟨hsource, -⟩ := Path.components_directory hs hm
  obtain ⟨htarget, hfile⟩ := Path.components_directory ht hn
  obtain ⟨hrelative, hsegments⟩ :=
    segments_specifier hsource htarget (isName_fileName ht hn) hn
  rw [Path.normal, Path.normal, Path.components_join hsource hrelative, hsegments, hfile,
    ← List.append_assoc, List.foldl_append, List.foldl_append, List.foldl_append,
    ← Path.foldl_wayTo hsource htarget]
  exact List.append_left_inj [n]

/-- Where there is no `..` in the directory of the source, specifiers lead to their targets. -/
theorem normal_join_specifier_of_not_mem_up {m : String} (hs : source.isAbsolute)
    (ht : target.isAbsolute) (hm : source.fileName? = some m) (hn : target.fileName? = some n)
    (hup : .up ∉ source.directory.components) :
    (source.directory.join ⟨specifier source target false ++ droppedExtension n⟩).normal =
      target.normal := by
  refine (normal_join_specifier hs ht hm hn).mpr (.inl fun hbase => hup ?_)
  rw [(Fork.of_eq target.directory.components source.directory.components).2]
  exact List.mem_append_right _ hbase

/-- For absolute source and target, the extension for modules is put behind the specifier, and
changes nothing else; the specifier opens with `./` or `../` unless its first step is a name that
begins with two dots; and it leads from the directory of the source to the target exactly if going
up once for each component of the source's directory behind the fork does no harm. -/
theorem specifier_leads_back {m : String} (hs : source.isAbsolute) (ht : target.isAbsolute)
    (hm : source.fileName? = some m) (hn : target.fileName? = some n) (jsExtension : Bool) :
    specifier source target jsExtension =
        specifier source target false ++ (if jsExtension then ".js" else "") ∧
      (IsRelative (specifier source target jsExtension) ↔
        (Path.wayTo source target).head? = some .up ∨
          ∀ step ∈ (specifierSteps source target).head?, ¬ ['.', '.'] <+: step.toList) ∧
      ((source.directory.join ⟨specifier source target false ++ droppedExtension n⟩).normal =
        target.normal ↔ (Path.forkTo source target).Harmless) := by
  obtain ⟨hsource, -⟩ := Path.components_directory hs hm
  obtain ⟨htarget, -⟩ := Path.components_directory ht hn
  refine ⟨?_, isRelative_specifier hsource htarget (isName_fileName ht hn) hn jsExtension,
    normal_join_specifier hs ht hm hn⟩
  rw [specifier, specifier, if_neg Bool.false_ne_true, String.append_empty]

/-- Between directories without `..`, a specifier leads to its target. -/
theorem specifier_leads_back_feed :
    let source : Path := ⟨"/app/pages/feed.generated.ts"⟩
    let target : Path := ⟨"/app/shared/user.generated.ts"⟩
    IsRelative (specifier source target true) ∧
      (source.directory.join ⟨specifier source target false ++ ".ts"⟩).normal =
        target.normal := by
  intro source target
  have hs : source.isAbsolute := by decide
  have ht : target.isAbsolute := by decide
  have hm : source.fileName? = some "feed.generated.ts" := by decide
  have hn : target.fileName? = some "user.generated.ts" := by decide
  obtain ⟨-, hrelative, hback⟩ := specifier_leads_back hs ht hm hn true
  exact ⟨hrelative.mpr (.inl (by decide)), hback.mpr (.inl (by decide))⟩

/-- Past a `..` in the directory of the source no way is found, and the target counts as lying
beside the source; a name that begins with two dots opens a specifier as if it were a step up. -/
theorem specifier_leads_astray :
    specifier ⟨"/a/../shared/u.ts"⟩ ⟨"/a/src/x.ts"⟩ false = "./x" ∧
      ((⟨"/a/../shared/u.ts"⟩ : Path).directory.join ⟨"./x.ts"⟩).normal = ["shared", "x.ts"] ∧
      (⟨"/a/src/x.ts"⟩ : Path).normal = ["a", "src", "x.ts"] ∧
      specifier ⟨"/a/x.ts"⟩ ⟨"/a/..b.ts"⟩ false = "..b" ∧ ¬ IsRelative "..b" := by
  refine ⟨?_, by decide, by decide, ?_, by decide⟩
  all_goals
    rw [← String.toList_inj, specifier_eq]
    decide

end Composables
