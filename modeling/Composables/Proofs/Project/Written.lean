import Composables.Proofs.FileSystem.Write
import Composables.Proofs.Project.Check

/-
  What is found on disk once a project is compiled into modules beside its documents. The modules
  are written one after the other, and two paths may lead to one place. So each document finds its
  own module, and the files that were read are as they were, exactly if no place is written with
  anything but what belongs there (`intact_iff_apart`).
-/

namespace Composables.Project

open FileSystem (Logged Writes Written)

variable {fs fs' fs'' : FileSystem} {p : Project} {l : Loaded} {d : Document} {ds : List Document}
  {path : Path} {files : List Path} {log : List Written} {r : Report}

/-! ## One module after the other -/

/-- What is written beside a document: the text of its module. -/
def beside (p : Project) (l : Loaded) (d : Document) : Except Error Written := do
  let m ← Layout.generate l.schema p.options l.collection p.extension d
  return { path := Layout.outputPath d.location p.extension, text := m.render }

theorem writeModule_eq_ok {m : Module} : writeModule path m fs = .ok () fs' ↔
    FileSystem.writeWithParents path (.text m.render) fs = .ok () fs' := by
  unfold writeModule
  cases FileSystem.writeWithParents path (.text m.render) fs with
  | ok =>
      constructor <;>
      · intro h
        cases h
        rfl
  | error => exact ⟨nofun, nofun⟩

/-- A module that is made and then written. -/
theorem writing_eq_ok {α : Type} {x : Except Error Module} {a b : α} :
    (do writeModule path (← MonadExcept.ofExcept x); return a : Action α) fs = .ok b fs' ↔
      b = a ∧ ∃ m, x = .ok m ∧
        FileSystem.writeWithParents path (.text m.render) fs = .ok () fs' := by
  constructor
  · intro h
    obtain ⟨m, _, hmodule, hrest⟩ := Outcome.run_bind_eq_ok.mp h
    obtain ⟨hm, rfl⟩ := Outcome.run_ofExcept_eq_ok.mp hmodule
    obtain ⟨⟨⟩, _, hwrite, hresult⟩ := Outcome.run_bind_eq_ok.mp hrest
    cases hresult
    exact ⟨rfl, m, hm, writeModule_eq_ok.mp hwrite⟩
  · rintro ⟨rfl, m, hm, hwrite⟩
    refine Outcome.run_bind_eq_ok.mpr ⟨m, fs, Outcome.run_ofExcept_eq_ok.mpr ⟨hm, rfl⟩, ?_⟩
    exact Outcome.run_bind_eq_ok.mpr ⟨(), fs', writeModule_eq_ok.mpr hwrite, rfl⟩

theorem compileBeside_eq_ok : compileBeside p l d fs = .ok path fs' ↔
    ∃ w, beside p l d = .ok w ∧ path = w.path ∧
      FileSystem.writeWithParents w.path (.text w.text) fs = .ok () fs' := by
  refine writing_eq_ok.trans ?_
  constructor
  · rintro ⟨rfl, m, hm, hwrite⟩
    exact ⟨_, Outcome.bind_eq_ok.mpr ⟨m, hm, rfl⟩, rfl, hwrite⟩
  · rintro ⟨w, hw, rfl, hwrite⟩
    obtain ⟨m, hm, hw⟩ := Outcome.bind_eq_ok.mp hw
    obtain rfl := Except.ok.inj hw
    exact ⟨rfl, m, hm, hwrite⟩

/-- What is written beside documents is known before the first of it is written. -/
theorem mapM_compileBeside_eq_ok : ds.mapM (compileBeside p l) fs = .ok files fs' ↔
    ∃ ws, ds.mapM (beside p l) = .ok ws ∧ files = ws.map Written.path ∧ Writes ws fs fs' := by
  induction ds generalizing fs files with
  | nil =>
      constructor
      · intro h
        cases h
        exact ⟨[], rfl, rfl, .nil _⟩
      · rintro ⟨ws, hws, rfl, hwrites⟩
        cases hws
        cases hwrites
        rfl
  | cons d ds ih =>
      simp only [List.mapM_cons, Outcome.run_bind_eq_ok, Outcome.bind_eq_ok]
      constructor
      · rintro ⟨path, mid, hd, paths, last, hds, hresult⟩
        cases hresult
        obtain ⟨w, hw, rfl, hwrite⟩ := compileBeside_eq_ok.mp hd
        obtain ⟨ws, hws, rfl, hwrites⟩ := ih.mp hds
        exact ⟨w :: ws, ⟨w, hw, ws, hws, rfl⟩, rfl, .cons hwrite hwrites⟩
      · rintro ⟨_, ⟨w, hw, ws, hws, hall⟩, rfl, hwrites⟩
        obtain rfl := Except.ok.inj hall
        cases hwrites with
        | cons hwrite hrest =>
            exact ⟨w.path, _, compileBeside_eq_ok.mpr ⟨w, hw, rfl, hwrite⟩,
              ws.map Written.path, fs', ih.mpr ⟨ws, hws, rfl, hrest⟩, rfl⟩

/-- Each module that is written comes in front of the log. -/
theorem logged_of_mapM (hlog : Logged fs log fs')
    (h : ds.mapM (compileBeside p l) fs' = .ok files fs'') :
    ∃ ws, ds.mapM (beside p l) = .ok ws ∧ Logged fs (ws.reverse ++ log) fs'' := by
  obtain ⟨ws, hws, _, hwrites⟩ := mapM_compileBeside_eq_ok.mp h
  exact ⟨ws, hws, hlog.writes hwrites⟩

/-! ## What is found afterwards -/

/-- The files that a project is read from. -/
def inputs (p : Project) (l : Loaded) : List Path := p.schema :: l.documents.map Document.location

/-- Each document that gets a module finds it where it was written, and the files that were read
are as they were. -/
structure Intact (p : Project) (l : Loaded) (fs fs' : FileSystem) : Prop where
  modules : ∀ d ∈ l.sources, ∃ w, beside p l d = .ok w ∧ fs'.readText w.path = .ok w.text
  inputs : ∀ q ∈ inputs p l, fs'.readText q = fs.readText q

/-- Modules that come to one place have one text, and a module that comes to the place of a file
that was read has the text of that file. -/
structure Apart (p : Project) (l : Loaded) (fs : FileSystem) : Prop where
  modules : ∀ d ∈ l.sources, ∀ d' ∈ l.sources, ∀ w w', beside p l d = .ok w →
    beside p l d' = .ok w' → fs.placeOf w.path = fs.placeOf w'.path → w.text = w'.text
  inputs : ∀ d ∈ l.sources, ∀ q ∈ inputs p l, ∀ w, beside p l d = .ok w →
    fs.placeOf w.path = fs.placeOf q → fs.readText q = .ok w.text

theorem readText_of_mem_inputs (h : loadAll fs p = .ok l) {q : Path} (hq : q ∈ inputs p l) :
    ∃ text, fs.readText q = .ok text := by
  rcases List.mem_cons.mp hq with rfl | hq
  · obtain ⟨text, htext, _⟩ := Outcome.bind_eq_ok.mp h
    exact ⟨text, readFile_eq_ok.mp htext⟩
  · obtain ⟨d, hd, rfl⟩ := List.mem_map.mp hq
    obtain ⟨text, htext, _⟩ := fromFile_of_mem (loadAll_eq_ok h).1 hd
    exact ⟨text, htext⟩

/-- After the modules of all documents are written, what is found is what belongs there exactly if
nothing else came to the same places. -/
theorem intact_iff_of_logged (hload : loadAll fs p = .ok l) {ws : List Written}
    (hws : l.sources.mapM (beside p l) = .ok ws) (hlog : Logged fs ws.reverse fs') :
    Intact p l fs fs' ↔ Apart p l fs := by
  -- the log holds the modules of the documents and nothing else
  have hmem : ∀ w, w ∈ ws.reverse ↔ ∃ d ∈ l.sources, beside p l d = .ok w :=
    fun w => List.mem_reverse.trans (Outcome.mem_mapM_iff hws)
  have hintact := hlog.intact_iff fun q hq => readText_of_mem_inputs hload hq
  constructor
  · intro h
    have hfound : ∀ w ∈ ws.reverse, fs'.readText w.path = .ok w.text := by
      intro w hw
      obtain ⟨d, hd, hbeside⟩ := (hmem w).mp hw
      obtain ⟨w', hbeside', hread⟩ := h.modules d hd
      rw [hbeside] at hbeside'
      exact Except.ok.inj hbeside' ▸ hread
    obtain ⟨hone, hsame⟩ := hintact.mp ⟨hfound, h.inputs⟩
    constructor
    case modules =>
      intro d hd d' hd' w w' hw hw'
      exact hone w ((hmem w).mpr ⟨d, hd, hw⟩) w' ((hmem w').mpr ⟨d', hd', hw'⟩)
    case inputs =>
      intro d hd q hq w hw
      exact hsame w ((hmem w).mpr ⟨d, hd, hw⟩) q hq
  · intro h
    have hone : ∀ w ∈ ws.reverse, ∀ w' ∈ ws.reverse, fs.placeOf w.path = fs.placeOf w'.path →
        w.text = w'.text := by
      intro w hw w' hw'
      obtain ⟨d, hd, hbeside⟩ := (hmem w).mp hw
      obtain ⟨d', hd', hbeside'⟩ := (hmem w').mp hw'
      exact h.modules d hd d' hd' w w' hbeside hbeside'
    have hsame : ∀ w ∈ ws.reverse, ∀ q ∈ inputs p l, fs.placeOf w.path = fs.placeOf q →
        fs.readText q = .ok w.text := by
      intro w hw q hq
      obtain ⟨d, hd, hbeside⟩ := (hmem w).mp hw
      exact h.inputs d hd q hq w hbeside
    obtain ⟨hfound, hinputs⟩ := hintact.mpr ⟨hone, hsame⟩
    refine ⟨fun d hd => ?_, hinputs⟩
    obtain ⟨w, hw, hbeside⟩ := Outcome.exists_of_mapM hws hd
    exact ⟨w, hbeside, hfound w (List.mem_reverse.mpr hw)⟩

/-- Modules that come to places of their own are apart. -/
theorem apart_of_nodup
    (hplaces : (l.sources.map fun d =>
      fs.placeOf (Layout.outputPath d.location p.extension)).Nodup)
    (hinputs : ∀ d ∈ l.sources, ∀ q ∈ inputs p l,
      fs.placeOf (Layout.outputPath d.location p.extension) ≠ fs.placeOf q) : Apart p l fs := by
  have hpath : ∀ d w, beside p l d = .ok w → w.path = Layout.outputPath d.location p.extension := by
    intro d w hw
    obtain ⟨m, _, h⟩ := Outcome.bind_eq_ok.mp hw
    rw [← Except.ok.inj h]
  constructor
  case modules =>
    intro d hd d' hd' w w' hw hw' hplace
    rw [hpath d w hw, hpath d' w' hw'] at hplace
    obtain rfl := List.inj_on_of_nodup_map hplaces hd hd' hplace
    rw [hw] at hw'
    rw [Except.ok.inj hw']
  case inputs =>
    intro d hd q hq w hw hplace
    rw [hpath d w hw] at hplace
    exact absurd hplace (hinputs d hd q hq)

/-- A compilation into modules beside the documents leaves each document its own module, and the
files that were read as they were, exactly if no two texts come to one place. -/
theorem intact_iff_apart (hpreset : p.preset = .nearOperationFile)
    (h : compile p fs = .ok r fs') :
    ∃ l, loadAll fs p = .ok l ∧ (Intact p l fs fs' ↔ Apart p l fs) := by
  rw [compile_eq] at h
  split at h
  · rename_i l hload
    rw [compileLoaded, hpreset] at h
    obtain ⟨files, last, hrun, hreport⟩ := Outcome.run_bind_eq_ok.mp h
    cases hreport
    obtain ⟨ws, hws, hlog⟩ := logged_of_mapM (Logged.nil fs) hrun
    rw [List.append_nil] at hlog
    exact ⟨l, hload, intact_iff_of_logged hload hws hlog⟩
  · cases h

/-- A query and a fragment in documents with one name but for the extension, and one of another
name. -/
def corner : FileSystem where
  current := []
  entries :=
    [(["a.gql"], .file (.text "query A\x7ba\x7d")),
      (["a.graphql"], .file (.text "fragment F on Query\x7ba\x7d")),
      (["b.gql"], .file (.text "fragment F on Query\x7ba\x7d")),
      (["q"], .file (.text "type Query\x7ba:Int\x7d"))]

/-- A project of the query and one more file; all that a module does is import the operations. -/
def cornerProject (file : Path) : Project where
  schema := ⟨"/q"⟩
  documents := [⟨"/a.gql"⟩, file]
  output := ⟨"/out.ts"⟩
  preset := .nearOperationFile
  extension := ".ts"
  config := [("documentMode", .string "external"),
    ("importDocumentNodeExternallyFrom", .string "docs"),
    ("withCompositionFunctions", .bool false)]

def cornerQuery : Graphql.OperationDefinition :=
  ⟨⟨1, 1⟩, .query, some "A", [], [], [.field ⟨1, 9⟩ none "a" [] [] []]⟩

def cornerFragment : Graphql.FragmentDefinition :=
  ⟨⟨1, 1⟩, "F", "Query", [], [.field ⟨1, 21⟩ none "a" [] [] []]⟩

/-- What is read of the query and of the fragment in a file. -/
def cornerLoaded (file : Path) : Loaded where
  schema := ⟨⟨some "Query", none, none⟩, ["Query"]⟩
  documents := [⟨⟨"/a.gql"⟩, [.operation cornerQuery]⟩, ⟨file, [.fragment cornerFragment]⟩]
  collection := ⟨[⟨⟨"/a.gql"⟩, "A", cornerQuery⟩], [⟨file, cornerFragment⟩], []⟩

theorem loadAll_corner : ∀ file ∈ [⟨"/a.graphql"⟩, ⟨"/b.gql"⟩],
    loadAll corner (cornerProject file) = .ok (cornerLoaded file) := by
  intro file hfile
  rcases List.mem_pair.mp hfile with rfl | rfl <;> cbv

theorem compile_corner : ∀ file ∈ [⟨"/a.graphql"⟩, ⟨"/b.gql"⟩],
    ∃ r fs', compile (cornerProject file) corner = .ok r fs' := by
  intro file hfile
  rw [compile_eq, loadAll_corner file hfile]
  rcases List.mem_pair.mp hfile with rfl | rfl
  · exact ⟨_, _, rfl⟩
  · exact ⟨_, _, rfl⟩

theorem intact_iff_apart_corner : ∃ r fs',
    compile (cornerProject ⟨"/b.gql"⟩) corner = .ok r fs' ∧
      Intact (cornerProject ⟨"/b.gql"⟩) (cornerLoaded ⟨"/b.gql"⟩) corner fs' := by
  obtain ⟨r, fs', hrun⟩ := compile_corner ⟨"/b.gql"⟩ (by simp)
  obtain ⟨l, hload, hintact⟩ := intact_iff_apart rfl hrun
  rw [loadAll_corner _ (by simp)] at hload
  obtain rfl := Except.ok.inj hload
  exact ⟨r, fs', hrun, hintact.mpr (apart_of_nodup (by decide +kernel) (by decide +kernel))⟩

/-- The module of the fragment replaces that of the query, and the compilation succeeds. -/
theorem corner_clash : ∃ r fs',
    compile (cornerProject ⟨"/a.graphql"⟩) corner = .ok r fs' ∧
      loadAll corner (cornerProject ⟨"/a.graphql"⟩) = .ok (cornerLoaded ⟨"/a.graphql"⟩) ∧
      ¬ Intact (cornerProject ⟨"/a.graphql"⟩) (cornerLoaded ⟨"/a.graphql"⟩) corner fs' := by
  obtain ⟨r, fs', hrun⟩ := compile_corner ⟨"/a.graphql"⟩ (by simp)
  refine ⟨r, fs', hrun, loadAll_corner _ (by simp), fun h => ?_⟩
  obtain ⟨query, fragment, hquery, hfragment, hpath, htext⟩ : ∃ query fragment,
      beside (cornerProject ⟨"/a.graphql"⟩) (cornerLoaded ⟨"/a.graphql"⟩)
        ⟨⟨"/a.gql"⟩, [.operation cornerQuery]⟩ = .ok query ∧
      beside (cornerProject ⟨"/a.graphql"⟩) (cornerLoaded ⟨"/a.graphql"⟩)
        ⟨⟨"/a.graphql"⟩, [.fragment cornerFragment]⟩ = .ok fragment ∧
      query.path = fragment.path ∧ query.text ≠ fragment.text :=
    ⟨_, _, rfl, rfl, by decide +kernel, by decide +kernel⟩
  obtain ⟨w, hw, hread⟩ := h.modules ⟨⟨"/a.gql"⟩, [.operation cornerQuery]⟩
    (List.mem_filter.mpr ⟨List.mem_cons_self, rfl⟩)
  obtain ⟨w', hw', hread'⟩ := h.modules ⟨⟨"/a.graphql"⟩, [.fragment cornerFragment]⟩
    (List.mem_filter.mpr ⟨List.mem_cons_of_mem _ List.mem_cons_self, rfl⟩)
  rw [hquery] at hw
  rw [hfragment] at hw'
  obtain rfl := Except.ok.inj hw
  obtain rfl := Except.ok.inj hw'
  rw [hpath, hread'] at hread
  exact htext (Except.ok.inj hread).symm

end Composables.Project
