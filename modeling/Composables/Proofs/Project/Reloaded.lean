import Composables.Proofs.Json.ReadBack
import Composables.Proofs.Path.Normal
import Composables.Proofs.Project.Load

/-
  Projects that do not depend on where their file lies. A project that was loaded has absolute
  paths, which no directory changes (`Absolute.rebase_eq`), and options that some text has as its
  value (`sound_of_decode`), so that it is decoded from its own text (`decode_serialize`).
-/

namespace Composables

open Composables.Path (IsName)

/-! ## The directory of a file -/

namespace FileSystem

variable {fs : FileSystem} {p : Path} {k : Place}

/-- From a place of names, a path leads to a place of names. -/
theorem isName_of_resolve (hcurrent : ∀ n ∈ fs.current, IsName n) (h : fs.resolve p = .ok k) :
    ∀ n ∈ k, IsName n := by
  unfold resolve at h
  split at h
  · cases h
  · refine Outcome.foldlM_invariant (P := fun k => ∀ n ∈ k, IsName n) ?_ h ?_
    · intro s hs k next hnext hk
      obtain ⟨-, rfl⟩ := enter_eq_ok.mp hnext
      unfold step
      split
      · exact fun n hn => hk n (List.mem_of_mem_dropLast hn)
      · rename_i n hn
        have hname := Path.isName_of_mem hs hn
        exact List.forall_mem_append.mpr ⟨hk, List.forall_mem_singleton.mpr hname⟩
      · exact hk
    · unfold start
      split
      · nofun
      · exact hcurrent

theorem toList_pathTo (h : k ≠ []) :
    (pathTo k).text.toList = k.flatMap fun n => '/' :: n.toList := by
  have hjoin : ∀ k : Place, k ≠ [] →
      '/' :: Text.join ['/'] (k.map String.toList) = k.flatMap fun n => '/' :: n.toList := by
    intro k
    induction k with
    | nil => exact fun h => absurd rfl h
    | cons n k ih =>
        intro _
        cases k with
        | nil => exact (List.append_nil _).symm
        | cons m k =>
            rw [List.flatMap_cons, ← ih (List.cons_ne_nil m k)]
            exact congrArg (List.cons '/') (List.append_assoc ..)
  rw [← hjoin k h, pathTo, String.toList_append, String.toList_intercalate,
    Text.join_eq_intercalate]
  rfl

/-- The path of a place that is not the root leads through a directory. -/
theorem parent?_pathTo {n : String} (hn : IsName n) (k : Place) :
    ∃ base, (pathTo (k ++ [n])).parent? = some base ∧ base.isAbsolute := by
  have htext := toList_pathTo (List.concat_ne_nil n k)
  rw [List.flatMap_append, List.flatMap_singleton] at htext
  have hsegments : (pathTo (k ++ [n])).segments =
      Text.split '/' (k.flatMap fun n => '/' :: n.toList) ++ [n.toList] := by
    rw [Path.segments, htext, Text.split_append_sep, Text.split_of_not_mem hn.slash]
  have habsolute : (pathTo (k ++ [n])).isAbsolute := by
    rw [Path.isAbsolute_iff, pathTo, String.toList_append]
    exact ⟨_, rfl⟩
  obtain ⟨hdirectory, -⟩ :=
    Path.components_directory habsolute (Path.fileName?_of_segments hsegments hn.segment)
  unfold Path.directory at hdirectory
  cases hparent : (pathTo (k ++ [n])).parent? with
  | none =>
      rw [hparent] at hdirectory
      cases hdirectory
  | some base =>
      rw [hparent] at hdirectory
      exact ⟨base, rfl, hdirectory⟩

theorem canonical_of_readText {text : String} (h : fs.readText p = .ok text) :
    ∃ place, fs.canonical p = .ok place := by
  obtain ⟨k, hfind⟩ := node_of_readText h
  exact ⟨pathTo k, Outcome.bind_eq_ok.mpr ⟨_, find_eq_ok.mpr hfind, rfl⟩⟩

/-- A file lies in a directory. -/
theorem parent?_canonical (hcurrent : ∀ n ∈ fs.current, IsName n) {text : String}
    (hread : fs.readText p = .ok text) {place : Path} (h : fs.canonical p = .ok place) :
    ∃ base, place.parent? = some base ∧ base.isAbsolute := by
  obtain ⟨k, hk, hnode⟩ := node_of_readText hread
  obtain ⟨⟨k', node⟩, hfind, hplace⟩ := Outcome.bind_eq_ok.mp h
  obtain rfl : k' = k := Except.ok.inj ((find_eq_ok.mp hfind).1.symm.trans hk)
  obtain rfl : pathTo k' = place := Except.ok.inj hplace
  rcases List.eq_nil_or_concat k' with rfl | ⟨front, n, rfl⟩
  · cases hnode
  · rw [List.concat_eq_append] at hk ⊢
    exact parent?_pathTo (isName_of_resolve hcurrent hk n List.mem_concat_self) front

end FileSystem

namespace Project

open Json (Sound)

variable {fs : FileSystem} {p : Project} {file : Path}

/-! ## Absolute paths -/

/-- Whether the paths of a project are absolute. -/
structure Absolute (p : Project) : Prop where
  schema : p.schema.isAbsolute
  documents : ∀ d ∈ p.documents, d.isAbsolute
  output : p.output.isAbsolute

theorem absolute_rebase {base : Path} (h : base.isAbsolute) (p : Project) :
    (p.rebase base).Absolute where
  schema := Path.isAbsolute_join h
  documents := List.forall_mem_map.mpr fun _ _ => Path.isAbsolute_join h
  output := Path.isAbsolute_join h

/-- Absolute paths are the same from any directory. -/
theorem Absolute.rebase_eq (h : p.Absolute) (base : Path) : p.rebase base = p := by
  have hjoin {q : Path} (hq : q.isAbsolute) : base.join q = q := if_pos hq
  have hdocuments : p.documents.map base.join = p.documents :=
    (List.map_congr_left fun d hd => hjoin (h.documents d hd)).trans (List.map_id' _)
  rw [rebase, hjoin h.schema, hjoin h.output, hdocuments]

/-! ## Decoding -/

theorem Field.ofName?_name (f : Field) : Field.ofName? f.name = some f := by cases f <;> rfl

/-- Whether the options read so far are a value that a text has inside the brackets of a project. -/
def Fields.Sound (fs : Fields) : Prop :=
  ∀ ms ∈ fs.config?, Json.Sound (Json.depthLimit - 1) (.object ms)

theorem sound_of_readConfig {d : Json.Draft} {ms : Json.Members} (h : readConfig d = .ok ms) :
    Sound (Json.depthLimit - 1) (.object ms) := by
  unfold readConfig at h
  split at h
  · split at h
    · rename_i hdecoded
      exact Except.ok.inj h ▸ Json.sound_of_toJson? _ hdecoded
    · cases h
  · cases h

theorem sound_of_read {fields next : Fields} {d : Json.Draft} (f : Field)
    (h : f.read fields d = .ok next) (hfields : fields.Sound) : next.Sound := by
  cases f with
  | config =>
      obtain ⟨ms, hms, rfl⟩ := Outcome.map_eq_ok.mp h
      rintro _ ⟨⟩
      exact sound_of_readConfig hms
  | _ =>
      obtain ⟨_, _, rfl⟩ := Outcome.map_eq_ok.mp h
      exact hfields

theorem sound_of_readMember {fields next : Fields} {key : Option String} {d : Json.Draft}
    (h : readMember fields key d = .ok next) (hfields : fields.Sound) : next.Sound := by
  unfold readMember at h
  split at h
  · split at h
    · split at h
      · cases h
      · exact sound_of_read _ h hfields
    · split at h
      · exact Except.ok.inj h ▸ hfields
      · cases h
  · cases h

theorem sound_of_toProject {fields : Fields} (h : fields.toProject = .ok p)
    (hfields : fields.Sound) : Sound (Json.depthLimit - 1) (.object p.config) := by
  unfold Fields.toProject at h
  split at h
  · cases h
  · cases h
  · obtain rfl := Except.ok.inj h
    dsimp only
    cases hconfig : fields.config? with
    | none => exact .object (by decide) List.nodup_nil nofun
    | some ms => exact hfields ms hconfig

theorem sound_none : Fields.none.Sound := nofun

theorem sound_of_ofObject {members : List (Option String × Json.Draft)} {closed : Bool}
    (h : ofObject members closed = .ok p) : Sound (Json.depthLimit - 1) (.object p.config) := by
  obtain ⟨fields, hfields, h⟩ := Outcome.bind_eq_ok.mp h
  split at h
  · exact sound_of_toProject h
      (Outcome.foldlM_invariant (fun _ _ _ _ => sound_of_readMember) hfields sound_none)
  · cases h

theorem sound_of_ofArray {items : List Json.Draft} {closed : Bool}
    (h : ofArray items closed = .ok p) : Sound (Json.depthLimit - 1) (.object p.config) := by
  obtain ⟨fields, hfields, h⟩ := Outcome.bind_eq_ok.mp h
  split at h
  · exact sound_of_toProject h
      (Outcome.foldlM_invariant (fun m _ _ _ => sound_of_read m.1) hfields sound_none)
  · cases h

/-- The options of a project are a value that a text has. -/
theorem sound_of_decode {text : String} (h : decode text = .ok p) :
    Sound (Json.depthLimit - 1) (.object p.config) := by
  have hatEnd {atEnd : Bool} {project : Project}
      (h : (if atEnd then .ok project else .error .malformed : Except Fault Project) = .ok p) :
      project = p := by
    split at h
    · exact Except.ok.inj h
    · cases h
  unfold decode at h
  dsimp only at h
  split at h
  · obtain ⟨project, hproject, h⟩ := Outcome.bind_eq_ok.mp h
    exact hatEnd h ▸ sound_of_ofObject hproject
  · obtain ⟨project, hproject, h⟩ := Outcome.bind_eq_ok.mp h
    exact hatEnd h ▸ sound_of_ofArray hproject
  · cases h

/-! ## Decoding what is written -/

theorem readPaths_drafts (paths : List Path) :
    readPaths (.array (Json.itemDrafts (paths.map fun d => .string d.text)) true) = .ok paths := by
  have hmap : (Json.itemDrafts (paths.map fun d => .string d.text)).mapM readPath = .ok paths := by
    induction paths with
    | nil => rfl
    | cons d paths ih =>
        rw [List.map_cons, Json.itemDrafts, List.mapM_cons, ih]
        rfl
  rw [readPaths, hmap]
  rfl

theorem readConfig_drafts {ms : Json.Members} (hms : Sound (Json.depthLimit - 1) (.object ms))
    (hfree : (Json.object ms).floatFree) :
    readConfig (.object (Json.memberDrafts ms) true) = .ok ms := by
  have hdecoded := Json.toJson?_draft _ hms hfree
  rw [Json.draft] at hdecoded
  rw [readConfig, hdecoded]

theorem readPreset_name (preset : Preset) :
    readPreset (.string (some preset.name)) = .ok preset := by
  rw [readPreset, presetNamed, Preset.ofName?_name]

theorem floatFree_toJson (h : (Json.object p.config).floatFree) : p.toJson.floatFree := by
  have hdocuments (ds : List Path) :
      Json.floatFreeItems (ds.map fun d => .string d.text) = true := by
    induction ds with
    | nil => rfl
    | cons d ds ih => exact ih
  have hmembers : p.toJson.floatFree =
      (Json.floatFreeItems (p.documents.map fun d => .string d.text) &&
        ((Json.object p.config).floatFree && true)) := rfl
  rw [hmembers, hdocuments, h]
  rfl

/-- A member for a field that is not there yet is read as the field. -/
theorem foldlM_readMember {fields next : Fields} {d : Json.Draft} (f : Field)
    (hnew : f.isRead fields = false) (hread : f.read fields d = .ok next)
    (members : List (Option String × Json.Draft)) :
    ((some f.name, d) :: members).foldlM (fun fs m => readMember fs m.1 m.2) fields =
      members.foldlM (fun fs m => readMember fs m.1 m.2) next := by
  have hmember : readMember fields (some f.name) d = .ok next := by
    simp only [readMember, Field.ofName?_name, hnew, Bool.false_eq_true, if_false, hread]
  rw [List.foldlM_cons, hmember]
  rfl

/-- A project whose options are a value without floats that some text has is decoded from its own
text. -/
theorem decode_serialize (hsound : Sound (Json.depthLimit - 1) (.object p.config))
    (hfree : (Json.object p.config).floatFree) :
    decode p.serialize = .ok p := by
  have hobject : ofObject
      [(some Field.schema.name, .string (some p.schema.text)),
        (some Field.documents.name,
          .array (Json.itemDrafts (p.documents.map fun d => .string d.text)) true),
        (some Field.output.name, .string (some p.output.text)),
        (some Field.preset.name, .string (some p.preset.name)),
        (some Field.extension.name, .string (some p.extension)),
        (some Field.config.name, .object (Json.memberDrafts p.config) true)] true = .ok p := by
    rw [ofObject, foldlM_readMember .schema rfl rfl,
      foldlM_readMember .documents rfl (congrArg (Except.map _) (readPaths_drafts _)),
      foldlM_readMember .output rfl rfl,
      foldlM_readMember .preset rfl (congrArg (Except.map _) (readPreset_name _)),
      foldlM_readMember .extension rfl rfl,
      foldlM_readMember .config rfl (congrArg (Except.map _) (readConfig_drafts hsound hfree))]
    rfl
  unfold decode
  rw [serialize, Json.read_compact (floatFree_toJson hfree)]
  exact congrArg (· >>= _) hobject

/-! ## Loading -/

theorem load_eq_ok :
    load fs file = .ok p ↔ ∃ text project place, fs.readText file = .ok text ∧
      decode text = .ok project ∧ fs.canonical file = .ok place ∧
        place.parent?.elim project project.rebase = p := by
  unfold load
  constructor
  · intro h
    obtain ⟨text, htext, h⟩ := Outcome.bind_eq_ok.mp h
    obtain ⟨project, hproject, h⟩ := Outcome.bind_eq_ok.mp h
    obtain ⟨place, hplace, h⟩ := Outcome.bind_eq_ok.mp h
    refine ⟨text, project, place, readFile_eq_ok.mp htext, Outcome.mapError_eq_ok.mp hproject,
      Outcome.mapError_eq_ok.mp hplace, ?_⟩
    cases hparent : place.parent? <;> rw [hparent] at h <;> exact Except.ok.inj h
  · rintro ⟨text, project, place, htext, hproject, hplace, rfl⟩
    refine Outcome.bind_eq_ok.mpr ⟨text, readFile_eq_ok.mpr htext, ?_⟩
    refine Outcome.bind_eq_ok.mpr ⟨project, Outcome.mapError_eq_ok.mpr hproject, ?_⟩
    refine Outcome.bind_eq_ok.mpr ⟨place, Outcome.mapError_eq_ok.mpr hplace, ?_⟩
    cases place.parent? <;> rfl

/-- A project that was loaded has absolute paths. If its options hold no float, it is loaded from
its own text wherever that lies. -/
theorem loaded_again (hcurrent : ∀ n ∈ fs.current, IsName n) (hload : load fs file = .ok p) :
    p.Absolute ∧ ((Json.object p.config).floatFree →
      ∀ fs' file', fs'.readText file' = .ok p.serialize → load fs' file' = .ok p) := by
  obtain ⟨text, project, place, htext, hdecode, hplace, rfl⟩ := load_eq_ok.mp hload
  obtain ⟨base, hparent, hbase⟩ := FileSystem.parent?_canonical hcurrent htext hplace
  rw [hparent, Option.elim_some]
  have habsolute := absolute_rebase hbase project
  have hsound := sound_of_decode hdecode
  refine ⟨habsolute, fun hfree fs' file' hread => ?_⟩
  -- where the second file lies does not matter: no path is relative any more
  obtain ⟨place', hplace'⟩ := FileSystem.canonical_of_readText hread
  refine load_eq_ok.mpr ⟨_, _, place', hread, decode_serialize hsound hfree, hplace', ?_⟩
  cases place'.parent? with
  | none => rfl
  | some base' => exact habsolute.rebase_eq base'

/-- What is written of the project that `shed` has. -/
def shedText : String :=
  "\x7b\"schema\":\"/home/app/s.graphql\",\"documents\":[\"/home/app/src\",\"/d\"]," ++
    "\"output\":\"/home/app/o.ts\",\"preset\":\"near-operation-file\",\"extension\":\".g.ts\"," ++
    "\"config\":\x7b\"b\":\"x\",\"a\":[-2]\x7d\x7d"

/-- A project in the array form, with a key twice among its options, and the same project as it is
written, in another directory. -/
def shed : FileSystem where
  current := ["home"]
  entries := [
    (["home"], .directory), (["home", "app"], .directory),
    (["home", "app", "codegen.json"],
      .file (.text ("[\"s.graphql\",[\"src\",\"/d\"],\"o.ts\"," ++
        "\x7b\"near-operation-file\":null\x7d,\".g.ts\",\x7b\"b\":1,\"a\":[-2],\"b\":\"x\"\x7d]"))),
    (["loft"], .directory), (["loft", "again.json"], .file (.text shedText))]

theorem loaded_again_shed :
    ∃ p, load shed ⟨"app/codegen.json"⟩ = .ok p ∧ p.serialize = shedText ∧
      load shed ⟨"/loft/again.json"⟩ = .ok p := by
  have hwritten : (load shed ⟨"app/codegen.json"⟩).toOption.map
      (fun p => (p.serialize, (Json.object p.config).floatFree)) = some (shedText, true) := by
    decide +kernel
  cases hload : load shed ⟨"app/codegen.json"⟩ with
  | error e =>
      rw [hload] at hwritten
      cases hwritten
  | ok p =>
      rw [hload] at hwritten
      obtain ⟨htext, hfree⟩ := Prod.mk.inj (Option.some.inj hwritten)
      have hcurrent : ∀ n ∈ shed.current, IsName n :=
        List.forall_mem_singleton.mpr ⟨by decide +kernel, by decide +kernel⟩
      have hagain : shed.readText ⟨"/loft/again.json"⟩ = .ok p.serialize := by
        rw [htext]
        decide +kernel
      exact ⟨p, rfl, htext, (loaded_again hcurrent hload).2 hfree shed _ hagain⟩

end Project

end Composables
