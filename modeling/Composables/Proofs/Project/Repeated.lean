import Composables.Proofs.FileSystem.Walk
import Composables.Proofs.Project.Written

/-
  Compiling again. What a compilation writes depends on what it reads alone
  (`compileLoaded_eq_ok`), and where it writes nothing that it reads, it reads the same again:
  neither its modules nor the directories made for them come among the documents
  (`loadAll_again`). So a second compilation changes nothing (`compile_again`).
-/

namespace Composables

open FileSystem (Changed Writes Written)

namespace Project

variable {fs fs' : FileSystem} {p : Project} {l : Loaded} {free : Place → Prop} {q : Path}
  {r : Report}

/-! ## Reading again -/

/-- Files may be written at some places without a change to what a project is read from: they are
neither the schema nor files that are listed, and have no name of a document. -/
structure Outside (p : Project) (fs : FileSystem) (free : Place → Prop) : Prop where
  schema : ¬ free (fs.placeOf p.schema)
  roots : ∀ root ∈ p.documents, fs.isFile root → ¬ free (fs.placeOf root)
  names : ∀ k, free k → ∃ n, Path.IsName n ∧ k.getLast? = some n ∧ isDocument ⟨n⟩ = false

/-- Whether a path is that of a document is seen from its file name. -/
theorem isDocument_of_fileName? {n : String} (hn : Path.IsName n) (hq : q.fileName? = some n) :
    isDocument q = isDocument ⟨n⟩ := by
  unfold isDocument Path.extension?
  rw [hq, Path.fileName?_name hn]

theorem readText_changed {text : String} (h : Changed free fs fs') (hq : ¬ free (fs.placeOf q))
    (hread : fs.readText q = .ok text) : fs'.readText q = .ok text := by
  obtain ⟨k, hk, hnode⟩ := FileSystem.node_of_readText hread
  rw [FileSystem.place_of_resolve hk] at hnode hk
  exact FileSystem.readText_of_node
    (FileSystem.resolve_mono h.current (fun _ => h.directories) hk) (h.nodes hq hnode)

theorem loadDocument_changed {d : Document} (h : Changed free fs fs')
    (hq : ¬ free (fs.placeOf q)) (hload : loadDocument fs q = .ok d) :
    loadDocument fs' q = .ok d := by
  obtain ⟨text, htext, hparse⟩ := Outcome.bind_eq_ok.mp hload
  refine Outcome.bind_eq_ok.mpr ⟨text, ?_, hparse⟩
  exact readFile_eq_ok.mpr (readText_changed h hq (readFile_eq_ok.mp htext))

/-- A path with the name of a document does not lead to a place that is written to. -/
theorem Outside.not_free (h : Outside p fs free) (hq : isDocument q = true) :
    ¬ free (fs.placeOf q) := by
  intro hfree
  obtain ⟨n, hn, hlast, hname⟩ := h.names _ hfree
  obtain ⟨m, hm⟩ : ∃ m, q.fileName? = some m := by
    unfold isDocument Path.extension? at hq
    cases hfile : q.fileName? with
    | some m => exact ⟨m, rfl⟩
    | none =>
        rw [hfile] at hq
        cases hq
  rw [FileSystem.getLast?_placeOf hm, Option.some.injEq] at hlast
  rw [isDocument_of_fileName? hn (hlast ▸ hm), hname] at hq
  cases hq

/-- A directory is walked as before, since the walk passes over what was written. -/
theorem documentFiles_directory {root : Path} {k : Place} (h : Changed free fs fs')
    (hout : Outside p fs free) (hfind : fs.find root = .ok (k, .directory)) :
    documentFiles fs' root = documentFiles fs root ∧
      ∀ q ∈ documentFiles fs root, ¬ free (fs.placeOf q) := by
  have hwalk : documentFiles fs root = (fs.filesBelow root).filter isDocument := by
    simp only [documentFiles, FileSystem.isFile, hfind, Bool.false_eq_true, if_false]
  have hwalk' : documentFiles fs' root = (fs'.filesBelow root).filter isDocument := by
    simp only [documentFiles, FileSystem.isFile, h.find hfind, Bool.false_eq_true, if_false]
  have hpassed : ∀ k, free k →
      ∃ n, k.getLast? = some n ∧ ∀ dir : Path, isDocument (dir.join ⟨n⟩) = false := by
    intro k hk
    obtain ⟨n, hn, hlast, hname⟩ := hout.names k hk
    refine ⟨n, hlast, fun dir => ?_⟩
    rw [isDocument_of_fileName? hn (Path.fileName?_join hn dir), hname]
  refine ⟨?_, fun q hq => ?_⟩
  · rw [hwalk, hwalk', FileSystem.filter_filesBelow h hpassed hfind]
  · rw [hwalk] at hq
    exact hout.not_free (List.mem_filter.mp hq).2

/-- A file that is listed is found as before. -/
theorem documentFiles_file {root : Path} {k : Place} {contents : FileSystem.Contents}
    (h : Changed free fs fs') (hfree : ¬ free (fs.placeOf root))
    (hfind : fs.find root = .ok (k, .file contents)) :
    fs'.find root = .ok (k, .file contents) ∧ documentFiles fs root = [root] ∧
      documentFiles fs' root = [root] := by
  obtain ⟨hk, hnode⟩ := FileSystem.find_eq_ok.mp hfind
  rw [← FileSystem.place_of_resolve hk] at hfree
  have hfind' : fs'.find root = .ok (k, .file contents) := FileSystem.find_eq_ok.mpr
    ⟨FileSystem.resolve_mono h.current (fun _ => h.directories) hk, h.nodes hfree hnode⟩
  exact ⟨hfind', by simp only [documentFiles, FileSystem.isFile, hfind, if_true],
    by simp only [documentFiles, FileSystem.isFile, hfind', if_true]⟩

theorem loadRoot_changed {root : Path} {ds : List Document} (h : Changed free fs fs')
    (hout : Outside p fs free) (hroot : root ∈ p.documents) (hload : loadRoot fs root = .ok ds) :
    loadRoot fs' root = .ok ds := by
  obtain ⟨e, hfind, hload⟩ : ∃ e, fs.find root = .ok e ∧
      (documentFiles fs root).mapM (loadDocument fs) = .ok ds := by
    unfold loadRoot FileSystem.exists? at hload
    cases hfind : fs.find root with
    | ok e =>
        rw [hfind] at hload
        exact ⟨e, rfl, hload⟩
    | error fault =>
        rw [hfind] at hload
        cases hload
  have hagain : fs'.find root = .ok e ∧ documentFiles fs' root = documentFiles fs root ∧
      ∀ q ∈ documentFiles fs root, ¬ free (fs.placeOf q) := by
    obtain ⟨k, node⟩ := e
    cases node with
    | directory => exact ⟨h.find hfind, documentFiles_directory h hout hfind⟩
    | file contents =>
        have hfree := hout.roots root hroot (by rw [FileSystem.isFile, hfind])
        obtain ⟨hfind', hfiles, hfiles'⟩ := documentFiles_file h hfree hfind
        refine ⟨hfind', hfiles'.trans hfiles.symm, fun q hq => ?_⟩
        rw [hfiles, List.mem_singleton] at hq
        rwa [hq]
  obtain ⟨hfind', hfiles, hfree⟩ := hagain
  unfold loadRoot FileSystem.exists?
  rw [hfind', hfiles]
  exact Outcome.mapM_mono (fun q hq d => loadDocument_changed h (hfree q hq)) hload

/-- A project is read as before. -/
theorem loadAll_again (h : Changed free fs fs') (hout : Outside p fs free)
    (hload : loadAll fs p = .ok l) : loadAll fs' p = .ok l := by
  obtain ⟨text, htext, hload⟩ := Outcome.bind_eq_ok.mp hload
  have htext' : readFile fs' p.schema = .ok text :=
    readFile_eq_ok.mpr (readText_changed h hout.schema (readFile_eq_ok.mp htext))
  refine Outcome.bind_eq_ok.mpr ⟨text, htext', ?_⟩
  obtain ⟨schema, hschema, hload⟩ := Outcome.bind_eq_ok.mp hload
  refine Outcome.bind_eq_ok.mpr ⟨schema, hschema, ?_⟩
  obtain ⟨documents, hdocuments, hload⟩ := Outcome.bind_eq_ok.mp hload
  refine Outcome.bind_eq_ok.mpr ⟨documents, ?_, hload⟩
  obtain ⟨groups, hgroups, hdocuments⟩ := Outcome.bind_eq_ok.mp hdocuments
  refine Outcome.bind_eq_ok.mpr ⟨groups, ?_, hdocuments⟩
  exact Outcome.mapM_mono (fun root hroot ds => loadRoot_changed h hout hroot) hgroups

/-! ## Writing again -/

/-- What a compilation writes, in the order in which it does. -/
def modules (p : Project) (l : Loaded) : Except Error (List Written) :=
  match p.preset with
  | .singleFile =>
    (generate l.schema p.options [] l.documents).map fun m => [⟨p.output, m.render⟩]
  | .nearOperationFile => l.sources.mapM (beside p l)

/-- Once a project is read, it is known what is written and reported. -/
theorem compileLoaded_eq_ok : compileLoaded p l fs = .ok r fs' ↔
    ∃ ws, modules p l = .ok ws ∧ r = l.report (ws.map Written.path) ∧ Writes ws fs fs' := by
  unfold compileLoaded modules
  cases p.preset with
  | singleFile =>
      dsimp only
      rw [Outcome.run_bind_eq_ok]
      constructor
      · rintro ⟨files, mid, hrun, hreport⟩
        cases hreport
        obtain ⟨rfl, m, hm, hwrite⟩ := writing_eq_ok.mp hrun
        exact ⟨_, Outcome.map_eq_ok.mpr ⟨m, hm, rfl⟩, rfl, .cons hwrite (.nil _)⟩
      · rintro ⟨ws, hws, rfl, hwrites⟩
        obtain ⟨m, hm, rfl⟩ := Outcome.map_eq_ok.mp hws
        cases hwrites with
        | cons hwrite hrest =>
            cases hrest
            exact ⟨_, _, writing_eq_ok.mpr ⟨rfl, m, hm, hwrite⟩, rfl⟩
  | nearOperationFile =>
      dsimp only
      rw [Outcome.run_bind_eq_ok]
      constructor
      · rintro ⟨files, mid, hrun, hreport⟩
        cases hreport
        obtain ⟨ws, hws, rfl, hwrites⟩ := mapM_compileBeside_eq_ok.mp hrun
        exact ⟨ws, hws, rfl, hwrites⟩
      · rintro ⟨ws, hws, rfl, hwrites⟩
        exact ⟨_, fs', mapM_compileBeside_eq_ok.mpr ⟨ws, hws, rfl, hwrites⟩, rfl⟩

/-- Where no module has the name of a document, or comes to the place of the schema or of a file
that is listed, compiling again gives the same report and changes nothing. -/
theorem compile_again (h : compile p fs = .ok r fs') (hnames : ∀ q ∈ r.files, isDocument q = false)
    (hschema : ∀ q ∈ r.files, fs.placeOf q ≠ fs.placeOf p.schema)
    (hroots : ∀ q ∈ r.files, ∀ root ∈ p.documents, fs.isFile root →
      fs.placeOf q ≠ fs.placeOf root) : compile p fs' = .ok r fs' := by
  rw [compile_eq] at h ⊢
  split at h
  · rename_i l hload
    obtain ⟨ws, hws, rfl, hwrites⟩ := compileLoaded_eq_ok.mp h
    have hpath : ∀ w ∈ ws, w.path ∈ (l.report (ws.map Written.path)).files :=
      fun w hw => List.mem_map_of_mem hw
    have hout : Outside p fs (fun k => ∃ w ∈ ws, fs.placeOf w.path = k) := by
      constructor
      case schema =>
        rintro ⟨w, hw, hplace⟩
        exact hschema w.path (hpath w hw) hplace
      case roots =>
        rintro root hroot hfile ⟨w, hw, hplace⟩
        exact hroots w.path (hpath w hw) root hroot hfile hplace
      case names =>
        rintro k ⟨w, hw, rfl⟩
        obtain ⟨n, hn, hname⟩ := (hwrites.settled.ready w (List.mem_reverse.mpr hw)).fileName?
        refine ⟨n, hn, FileSystem.getLast?_placeOf hname fs, ?_⟩
        rw [← isDocument_of_fileName? hn hname]
        exact hnames w.path (hpath w hw)
    rw [loadAll_again hwrites.changed hout hload]
    exact compileLoaded_eq_ok.mpr ⟨ws, hws, rfl, hwrites.again⟩
  · cases h

/-- A directory with a query, and the fragment it spreads in a directory below. -/
def yard : FileSystem where
  current := []
  entries :=
    [(["d"], .directory),
      (["d", "a.gql"], .file (.text "query A\x7b...F\x7d")),
      (["d", "s"], .directory),
      (["d", "s", "f.gql"], .file (.text "fragment F on Query\x7ba\x7d")),
      (["q"], .file (.text "type Query\x7ba:Int\x7d"))]

/-- The directory's documents. One module for all is to lie in a new directory among them; modules
beside them do no more than import the operations. -/
def yardProject (preset : Preset) : Project where
  schema := ⟨"/q"⟩
  documents := [⟨"/d"⟩]
  output := ⟨"/d/g/o.ts"⟩
  preset := preset
  extension := ".ts"
  config :=
    match preset with
    | .singleFile => []
    | .nearOperationFile =>
      [("documentMode", .string "external"), ("importDocumentNodeExternallyFrom", .string "docs"),
        ("withCompositionFunctions", .bool false)]

/-- What the two documents define. -/
def yardDefinitions : List (Path × Graphql.Definition) :=
  [(⟨"/d/a.gql"⟩, .operation ⟨⟨1, 1⟩, .query, some "A", [], [], [.spread ⟨1, 12⟩ "F" []]⟩),
    (⟨"/d/s/f.gql"⟩, .fragment ⟨⟨1, 1⟩, "F", "Query", [], [.field ⟨1, 21⟩ none "a" [] [] []]⟩)]

def yardLoaded : Loaded where
  schema := ⟨⟨some "Query", none, none⟩, ["Query"]⟩
  documents := yardDefinitions.map fun e => ⟨e.1, [e.2]⟩
  collection :=
    ⟨yardDefinitions.filterMap fun e => e.2.operation? e.1,
      yardDefinitions.filterMap fun e => e.2.fragment? e.1, []⟩

theorem loadDocuments_yard : loadDocuments yard [⟨"/d"⟩] = .ok yardLoaded.documents := by cbv

theorem loadAll_yard (preset : Preset) : loadAll yard (yardProject preset) = .ok yardLoaded := by
  have hread : yard.readText ⟨"/q"⟩ = .ok "type Query\x7ba:Int\x7d" := rfl
  refine Outcome.bind_eq_ok.mpr ⟨_, readFile_eq_ok.mpr hread, ?_⟩
  refine Outcome.bind_eq_ok.mpr ⟨yardLoaded.schema, by cbv, ?_⟩
  exact Outcome.bind_eq_ok.mpr ⟨yardLoaded.documents, loadDocuments_yard, rfl⟩

/-- Two modules beside their documents can be written. -/
theorem modules_yard : ∃ text text', modules (yardProject .nearOperationFile) yardLoaded =
    .ok [⟨⟨"/d/a.ts"⟩, text⟩, ⟨⟨"/d/s/f.ts"⟩, text'⟩] := ⟨_, _, rfl⟩

theorem writes_yard (text text' : String) :
    ∃ fs, Writes [⟨⟨"/d/a.ts"⟩, text⟩, ⟨⟨"/d/s/f.ts"⟩, text'⟩] yard fs := by
  have hfirst : FileSystem.writeWithParents ⟨"/d/a.ts"⟩ (.text text) yard =
      .ok () (yard.insert ["d", "a.ts"] (.file (.text text))) := rfl
  have hsecond : FileSystem.writeWithParents ⟨"/d/s/f.ts"⟩ (.text text')
      (yard.insert ["d", "a.ts"] (.file (.text text))) =
      .ok () ((yard.insert ["d", "a.ts"] (.file (.text text))).insert ["d", "s", "f.ts"]
        (.file (.text text'))) := rfl
  exact ⟨_, .cons hfirst (.cons hsecond (.nil _))⟩

/-- One module is written into a new directory below the one that is walked, or one beside each
document; compiling again changes nothing. -/
theorem compile_again_yard : ∃ fs fs',
    compile (yardProject .singleFile) yard = .ok ⟨1, 1, [⟨"/d/g/o.ts"⟩]⟩ fs ∧
      compile (yardProject .singleFile) fs = .ok ⟨1, 1, [⟨"/d/g/o.ts"⟩]⟩ fs ∧
      compile (yardProject .nearOperationFile) yard =
        .ok ⟨1, 1, [⟨"/d/a.ts"⟩, ⟨"/d/s/f.ts"⟩]⟩ fs' ∧
      compile (yardProject .nearOperationFile) fs' =
        .ok ⟨1, 1, [⟨"/d/a.ts"⟩, ⟨"/d/s/f.ts"⟩]⟩ fs' := by
  obtain ⟨fs, hsingle⟩ : ∃ fs, compile (yardProject .singleFile) yard =
      .ok ⟨1, 1, [⟨"/d/g/o.ts"⟩]⟩ fs := by
    obtain ⟨m, hm⟩ : ∃ m, generate yardLoaded.schema (yardProject .singleFile).options []
        yardLoaded.documents = .ok m := by
      rw [generate_of_valid rfl rfl]
      exact Collection.exists_generate (by decide +kernel)
    obtain ⟨fs, hwrite⟩ : ∃ fs, FileSystem.writeWithParents ⟨"/d/g/o.ts"⟩ (.text m.render) yard =
        .ok () fs := ⟨_, rfl⟩
    have hmodules : modules (yardProject .singleFile) yardLoaded =
        .ok [⟨⟨"/d/g/o.ts"⟩, m.render⟩] := by
      unfold modules
      exact Outcome.map_eq_ok.mpr ⟨m, hm, rfl⟩
    refine ⟨fs, ?_⟩
    rw [compile_eq, loadAll_yard]
    exact compileLoaded_eq_ok.mpr ⟨_, hmodules, rfl, .cons hwrite (.nil fs)⟩
  obtain ⟨fs', hnear⟩ : ∃ fs', compile (yardProject .nearOperationFile) yard =
      .ok ⟨1, 1, [⟨"/d/a.ts"⟩, ⟨"/d/s/f.ts"⟩]⟩ fs' := by
    obtain ⟨text, text', hmodules⟩ := modules_yard
    obtain ⟨fs', hwrites⟩ := writes_yard text text'
    refine ⟨fs', ?_⟩
    rw [compile_eq, loadAll_yard]
    exact compileLoaded_eq_ok.mpr ⟨_, hmodules, rfl, hwrites⟩
  refine ⟨fs, fs', hsingle, ?_, hnear, ?_⟩
  · exact compile_again hsingle (by decide +kernel) (by decide +kernel) (by decide +kernel)
  · exact compile_again hnear (by decide +kernel) (by decide +kernel) (by decide +kernel)

end Project

end Composables
