import Mathlib
import Composables.Proofs.Module.Closed
import Composables.Proofs.Project.Action
import Composables.Proofs.Project.Load

/-
  Checking and compiling. What a check finds, a compilation fails with before it writes; behind a
  check that finds nothing, a compilation fails only to write, or to find where constants declared
  elsewhere are (`compile_of_check`).
-/

namespace Composables

variable {options : Options} {e : Error}

/-- The errors that a check cannot foresee. -/
def Error.Late (options : Options) (e : Error) : Prop :=
  (∃ path fault, e = .unwritable path fault) ∨
    (options.documentMode = .external ∧
      (e = .missingExternalModule ∨ ∃ n, e = .ambiguousExternalModule n))

/-- What is collected becomes a module, unless constants declared elsewhere are not found. -/
theorem Collection.late_of_generate {c : Collection} {sources : List Path}
    (h : c.generate options sources = .error e) : e.Late options :=
  .inr (documentImports_eq_error (generate_eq_error h))

namespace Project

open Graphql (PrintTells)

variable {fs : FileSystem} {p : Project} {l : Loaded}

/-- What is left of a compilation once the project is read. -/
def compileLoaded (p : Project) (l : Loaded) : Action Report :=
  match p.preset with
  | .singleFile => return l.report (← compileSingle p l)
  | .nearOperationFile => return l.report (← l.sources.mapM (compileBeside p l))

/-- A compilation reads the project, and changes nothing if that fails. -/
theorem compile_eq (fs : FileSystem) (p : Project) : compile p fs =
    match loadAll fs p with
    | .ok l => compileLoaded p l fs
    | .error e => .error e fs := by
  show EStateM.bind (MonadExcept.ofExcept (loadAll fs p)) _ fs = _
  unfold EStateM.bind
  cases loadAll fs p with
  | ok l => rfl
  | error e => rfl

theorem check_eq (fs : FileSystem) (p : Project) :
    check fs p = (loadAll fs p).map fun l => l.report [] := by
  unfold check
  cases loadAll fs p <;> rfl

/-- Making a module and writing it fails late if making it does. -/
theorem yields_writing {α : Type} {x : Except Error Module} (hx : ∀ e, x = .error e → e.Late options)
    (path : Path) (a : α) :
    Yields (Error.Late options) (fun _ => True)
      (do writeModule path (← MonadExcept.ofExcept x); return a : Action α) := by
  refine Yields.bind (.ofExcept (fun _ _ => trivial) hx) fun m _ => ?_
  refine Yields.bind ((yields_writeModule path m).mono ?_) fun _ _ => .pure trivial
  rintro e ⟨fault, h⟩
  exact .inl ⟨path, fault, h⟩

/-- One module for all documents is not made only if it cannot be written or lacks an import. -/
theorem yields_compileSingle (hc : Collection.ofDocuments l.documents [] = .ok l.collection)
    (hvalid : l.collection.validate l.schema = .ok ()) :
    Yields (Error.Late p.options) (fun _ => True) (compileSingle p l) := by
  refine yields_writing ?_ p.output [p.output]
  rw [generate_of_valid hc hvalid]
  exact fun e => Collection.late_of_generate

/-- The same holds of the module beside a document that is restated. -/
theorem yields_compileBeside {d : Document}
    (hc : Collection.ofDocuments l.documents [] = .ok l.collection)
    (hvalid : l.collection.validate l.schema = .ok ()) (hd : d ∈ l.documents)
    (hrestates : Layout.Restates l.collection d) :
    Yields (Error.Late p.options) (fun _ => True) (compileBeside p l d) := by
  obtain ⟨part, hpart⟩ : ∃ part, Collects [d]
      (Layout.importedFor d.location l.collection p.extension (!p.options.legacyImports)) part :=
    Layout.exists_collects (Collection.ofDocuments_eq_ok.mp hc) hd hrestates
  refine yields_writing ?_ (Layout.outputPath d.location p.extension) _
  rw [Layout.generate_of_collects hpart (Layout.validate_part hrestates hvalid hpart)]
  exact fun e => Collection.late_of_generate

/-- Once a project is read, its compilation gives the counts that a check gives. -/
theorem yields_compileLoaded (h : loadAll fs p = .ok l)
    (hprint : PrintTells (l.documents.flatMap Document.definitions)) :
    Yields (Error.Late p.options) (fun r => ∃ files, r = l.report files) (compileLoaded p l) := by
  obtain ⟨hload, hc, hvalid⟩ := loadAll_eq_ok h
  unfold compileLoaded
  cases p.preset with
  | singleFile =>
      refine Yields.bind (yields_compileSingle hc hvalid) fun files _ => ?_
      exact .pure ⟨files, rfl⟩
  | nearOperationFile =>
      refine Yields.bind (.mapM fun d hd => ?_) fun files _ => .pure ⟨files, rfl⟩
      have hd : d ∈ l.documents := List.mem_of_mem_filter hd
      refine yields_compileBeside hc hvalid hd ?_
      exact restates_of_files (fun e he => fromFile_of_mem hload he) hprint
        (Collection.ofDocuments_eq_ok.mp hc) hd

/-- What a check finds, a compilation fails with, and it changes no file. Behind a check that finds
nothing, a compilation gives the same counts, or it cannot write, or it does not find constants that
are declared elsewhere. The documents' definitions are supposed to be such that their prints tell
what they ask for. -/
theorem compile_of_check
    (hprint : ∀ ds, loadDocuments fs p.documents = .ok ds →
      PrintTells (ds.flatMap Document.definitions)) :
    (∀ e, check fs p = .error e → compile p fs = .error e fs) ∧
      ∀ r, check fs p = .ok r →
        (∃ files fs', compile p fs = .ok { r with files } fs') ∨
          ∃ e fs', compile p fs = .error e fs' ∧ e.Late p.options := by
  rw [check_eq, compile_eq]
  cases hload : loadAll fs p with
  | error e =>
      refine ⟨?_, nofun⟩
      intro e' he'
      rw [← Except.error.inj he']
  | ok l =>
      refine ⟨nofun, ?_⟩
      intro r hr
      obtain rfl := Except.ok.inj hr
      have hyields := yields_compileLoaded hload (hprint _ (loadAll_eq_ok hload).1) fs
      show (∃ files fs', compileLoaded p l fs = .ok (l.report files) fs') ∨
        ∃ e fs', compileLoaded p l fs = .error e fs' ∧ e.Late p.options
      cases hrun : compileLoaded p l fs with
      | ok r' fs' =>
          rw [hrun] at hyields
          obtain ⟨files, rfl⟩ := hyields
          exact .inl ⟨files, fs', rfl⟩
      | error e fs' =>
          rw [hrun] at hyields
          exact .inr ⟨e, fs', rfl, hyields⟩

/-- Two documents that define one fragment in the same words, and a schema. -/
def kitchen : FileSystem where
  current := []
  entries :=
    [(["a.gql"], .file (.text "query A\x7b...F\x7dfragment F on Q\x7ba\x7d")),
      (["b.gql"], .file (.text "query B\x7b...F\x7dfragment F on Q\x7ba\x7d")),
      (["q"], .file (.text "type Query\x7ba:Int\x7dtype Q\x7ba:Int\x7d"))]

def kitchenProject : Project where
  schema := ⟨"/q"⟩
  documents := [⟨"/a.gql"⟩, ⟨"/b.gql"⟩]
  output := ⟨"/out.ts"⟩
  preset := .nearOperationFile
  extension := ".ts"
  config := []

/-- What the documents of the kitchen define, but for the name of the query. -/
def kitchenDefinitions (name : String) : List Graphql.Definition :=
  [.operation ⟨⟨1, 1⟩, .query, some name, [], [], [.spread ⟨1, 12⟩ "F" []]⟩,
    .fragment ⟨⟨1, 14⟩, "F", "Q", [], [.field ⟨1, 30⟩ none "a" [] [] []]⟩]

theorem loadDocuments_kitchen : loadDocuments kitchen kitchenProject.documents =
    .ok [⟨⟨"/a.gql"⟩, kitchenDefinitions "A"⟩, ⟨⟨"/b.gql"⟩, kitchenDefinitions "B"⟩] := by cbv

theorem printTells_kitchen : PrintTells (kitchenDefinitions "A" ++ kitchenDefinitions "B") :=
  of_decide_eq_true (by cbv)

theorem check_kitchen : check kitchen kitchenProject = .ok ⟨2, 1, []⟩ := by cbv

theorem compile_of_check_kitchen : check kitchen kitchenProject = .ok ⟨2, 1, []⟩ ∧
    ((∃ files fs', compile kitchenProject kitchen = .ok ⟨2, 1, files⟩ fs') ∨
      ∃ e fs', compile kitchenProject kitchen = .error e fs' ∧ e.Late kitchenProject.options) := by
  refine ⟨check_kitchen, (compile_of_check ?_).2 _ check_kitchen⟩
  intro ds hds
  rw [loadDocuments_kitchen] at hds
  obtain rfl := Except.ok.inj hds
  exact printTells_kitchen

end Project

end Composables
