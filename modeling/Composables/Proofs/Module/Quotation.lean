import Composables.Layout
import Composables.Proofs.Collection.Gather
import Composables.Proofs.Module.Closed
import Composables.Proofs.Module.Names
import Composables.Proofs.Module.Specifier
import Composables.Proofs.Text.SingleQuoted

/-
  What import lines quote. The path of a module stands between single quotes as it is, so the
  literal of a line is read as that path exactly if it is a plain text, and what the line binds does
  not hold an opening of a literal itself (`quotes_importFrom_iff`). The paths come from options and
  from the names of files, and these may hold any sign (`quoted_iff_plain`).
-/

namespace Composables

open SingleQuoted (Plain scan units)

/-! ## The literal of a line -/

/-- What opens the literal in a line. -/
def opening : List Char := [' ', 'f', 'r', 'o', 'm', ' ', '\'']

/-- What stands behind the first opening of a literal. -/
def behindOpening? : List Char → Option (List Char)
  | [] => none
  | c :: cs =>
    if opening.isPrefixOf (c :: cs) then some ((c :: cs).drop opening.length) else behindOpening? cs

/-- The first literal of a line denotes a path, and nothing but a semicolon comes behind it. -/
def Quotes (line path : String) : Prop :=
  (behindOpening? line.toList).bind scan = some (units path.toList, [';'])

instance (line path : String) : Decidable (Quotes line path) := inferInstanceAs (Decidable (_ = _))

variable {cs rest : List Char}

theorem behindOpening?_found {c : Char} (h : opening <+: c :: cs) :
    behindOpening? (c :: cs) = some ((c :: cs).drop opening.length) := by
  rw [behindOpening?, if_pos (List.isPrefixOf_iff_prefix.mpr h)]

theorem behindOpening?_cons {c : Char} (h : ¬ opening <+: c :: cs) :
    behindOpening? (c :: cs) = behindOpening? cs := by
  rw [behindOpening?, if_neg (mt List.isPrefixOf_iff_prefix.mp h)]

theorem length_le_of_behindOpening? (h : behindOpening? cs = some rest) :
    opening.length ≤ cs.length := by
  induction cs with
  | nil => cases h
  | cons c cs ih =>
      by_cases hopening : opening <+: c :: cs
      · exact hopening.length_le
      · rw [behindOpening?_cons hopening] at h
        exact (ih h).trans (Nat.le_succ _)

/-- A prefix of two texts ends in the first or reaches into the second. -/
theorem prefix_append_cases {xs ys zs : List Char} (h : xs <+: ys ++ zs) :
    xs <+: ys ∨ ∃ more, more <+: zs ∧ xs = ys ++ more := by
  rcases List.prefix_or_prefix_of_prefix h (List.prefix_append ys zs) with hp | ⟨more, rfl⟩
  · exact .inl hp
  · exact .inr ⟨more, (List.prefix_append_right_inj ys).mp h, rfl⟩

/-- The first opening stays the first one if more comes behind the text. -/
theorem behindOpening?_append (h : behindOpening? cs = some rest) (ds : List Char) :
    behindOpening? (cs ++ ds) = some (rest ++ ds) := by
  induction cs with
  | nil => cases h
  | cons c cs ih =>
      rw [List.cons_append]
      by_cases hopening : opening <+: c :: cs
      · have hlonger : opening <+: c :: (cs ++ ds) :=
          hopening.trans (List.prefix_append (c :: cs) ds)
        rw [behindOpening?_found hopening] at h
        rw [behindOpening?_found hlonger, ← List.cons_append,
          List.drop_append_of_le_length hopening.length_le, Option.some.inj h]
      · rw [behindOpening?_cons hopening] at h
        rw [behindOpening?_cons, ih h]
        intro hlonger
        -- an opening that reached behind the text would leave no room for the one in it
        obtain ⟨more, _, hmore⟩ := (prefix_append_cases hlonger).resolve_left hopening
        have hroom := length_le_of_behindOpening? h
        rw [hmore, List.length_append, List.length_cons] at hroom
        omega

/-- An opening is found where it stands, as none begins inside of another. -/
theorem behindOpening?_opening (h : behindOpening? cs = none) (ds : List Char) :
    behindOpening? (cs ++ (opening ++ ds)) = some ds := by
  have hborder : ∀ l < opening.length, 0 < l → ¬ opening.drop l <+: opening := by decide
  induction cs with
  | nil => exact behindOpening?_found (List.prefix_append opening ds)
  | cons c cs ih =>
      have hopening : ¬ opening <+: c :: cs := by
        intro hopening
        rw [behindOpening?_found hopening] at h
        cases h
      rw [behindOpening?_cons hopening] at h
      rw [List.cons_append, behindOpening?_cons, ih h]
      intro hlonger
      obtain ⟨more, hmore, heq⟩ := (prefix_append_cases hlonger).resolve_left hopening
      have hdrop : opening.drop (c :: cs).length = more := by rw [heq, List.drop_left]
      have hne : more ≠ [] := by
        rintro rfl
        exact hopening ⟨[], by rw [heq, List.append_nil, List.append_nil]⟩
      have hpos := List.length_pos_of_ne_nil hne
      have hlength := congrArg List.length heq
      rw [List.length_append] at hlength
      refine hborder (c :: cs).length (by omega) (Nat.succ_pos _) ?_
      rw [hdrop]
      exact List.prefix_of_prefix_length_le hmore (List.prefix_append opening ds) (by omega)

/-- A line quotes its path exactly if the path is plain and no literal opens in front of it. -/
theorem quotes_importFrom_iff {what module : String} :
    Quotes (Import.importFrom what module) module ↔
      Plain module ∧ behindOpening? what.toList = none := by
  have hline : (Import.importFrom what module).toList =
      what.toList ++ (opening ++ (module.toList ++ '\'' :: [';'])) := by
    simp [Import.importFrom, opening]
  rw [Quotes, hline]
  cases hwhat : behindOpening? what.toList with
  | none =>
      rw [behindOpening?_opening hwhat, Option.bind_some, SingleQuoted.scan_eq_iff]
      exact (and_iff_left rfl).symm
  | some rest =>
      refine iff_of_false (fun h => ?_) (fun h => nomatch h.2)
      -- the literal in front ends with the quote that opens the one of the path
      have hquote : rest ++ (opening ++ (module.toList ++ '\'' :: [';'])) =
          rest ++ [' ', 'f', 'r', 'o', 'm'] ++ ' ' :: '\'' :: (module.toList ++ '\'' :: [';']) := by
        simp [opening]
      rw [behindOpening?_append hwhat, Option.bind_some, hquote] at h
      have hlength := SingleQuoted.length_le_of_scan (by decide) h
      simp at hlength

/-! ## Plain texts -/

variable {s t path : String}

theorem plain_append : Plain (s ++ t) ↔ Plain s ∧ Plain t := by
  simp only [Plain, String.toList_append, List.forall_mem_append]

theorem plain_dropExtension : Plain (dropExtension path) ↔ Plain path := by
  have hdropped : Plain (droppedExtension path) := by
    unfold droppedExtension
    split_ifs <;> decide
  rw [← dropExtension_append path, plain_append, dropExtension_append]
  exact (and_iff_left hdropped).symm

theorem plain_intercalate {steps : List String} :
    Plain ("/".intercalate steps) ↔ ∀ step ∈ steps, Plain step := by
  induction steps with
  | nil => decide
  | cons step steps ih =>
      rw [List.forall_mem_cons, ← ih]
      cases steps with
      | nil => simp [Plain]
      | cons next steps =>
          have hslash : Plain "/" := by decide
          rw [String.intercalate_cons_cons, plain_append, plain_append, and_iff_left hslash]

theorem plain_specifier {source target : Path} {jsExtension : Bool} :
    Plain (specifier source target jsExtension) ↔
      ∀ step ∈ specifierSteps source target, Plain step := by
  have hjs : Plain (if jsExtension then ".js" else "") := by cases jsExtension <;> decide
  have hbeside : Plain "./" := by decide
  rw [specifier, plain_append, and_iff_left hjs, ← plain_intercalate]
  split
  · rfl
  · rw [plain_append, and_iff_right hbeside]

/-! ## Imports -/

namespace Import

/-- The path of the module that a line imports from. -/
def path? : Import → Option String
  | .tag spec => some spec.module
  | .documentNode spec => some spec.module
  | .operations module => some module
  | .fragments module _ => some module
  | .library _ module => some module
  | .reactiveFunction => none
  | .omit => none

/-- What a line says about the names that it binds. -/
def clause : Import → String
  | .tag ⟨_, none⟩ => "import gql"
  | .tag ⟨_, some e⟩ => "import \x7b " ++ binding "gql" e ++ " \x7d"
  | .documentNode ⟨_, e⟩ =>
    "import type \x7b " ++ binding "DocumentNode" (e.getD "DocumentNode") ++ " \x7d"
  | .operations _ => "import * as Operations"
  | .fragments _ constants => "import \x7b " ++ ", ".intercalate constants ++ " \x7d"
  | .library name _ => "import * as " ++ name
  | .reactiveFunction => ""
  | .omit => ""

theorem render_eq : ∀ {i : Import}, i.path? = some path → i.render = importFrom i.clause path
  | .tag ⟨_, none⟩, rfl => rfl
  | .tag ⟨_, some _⟩, rfl => rfl
  | .documentNode _, rfl => rfl
  | .operations _, rfl => rfl
  | .fragments _ _, rfl => rfl
  | .library _ _, rfl => rfl

/-- The texts of options and of file names that the path of an import is made of. The module of
another document is named by a specifier, and so by the steps of the way there. -/
inductive MadeOf (options : Options) (imported : List ImportedFragment) (sources : List Path) :
    Import → List String → Prop where
  | tag : MadeOf options imported sources (.tag options.tagImport) [options.tagImport.module]
  | documentNode : MadeOf options imported sources (.documentNode options.documentNodeImport)
      [options.documentNodeImport.module]
  | given {text : String} (h : options.externalModule? = some (.path text)) :
      MadeOf options imported sources (.operations (dropExtension text)) [text]
  | beside {source : Path} (h : options.externalModule? = some .besideDocument)
      (hsources : sources = [source]) :
      MadeOf options imported sources
        (.operations ("./" ++ source.stem ++ if options.legacyImports then "" else ".js"))
        [source.stem]
  | fragments {f : ImportedFragment} {constants : List String} (hf : f ∈ imported) :
      MadeOf options imported sources (.fragments f.module constants) [f.module]
  | specifier {f : ImportedFragment} {constants : List String} {source target : Path}
      {jsExtension : Bool} (hf : f ∈ imported)
      (hmodule : f.module = specifier source target jsExtension) :
      MadeOf options imported sources (.fragments f.module constants)
        (specifierSteps source target)
  | apollo : MadeOf options imported sources (.library "VueApolloComposable" options.apolloModule)
      [options.apolloModule]
  | composition :
      MadeOf options imported sources (.library "VueCompositionApi" options.compositionModule)
        [options.compositionModule]
  | urql : MadeOf options imported sources (.library "Urql" options.urqlModule) [options.urqlModule]

variable {i : Import} {options : Options} {imported imported' : List ImportedFragment}
  {sources : List Path} {texts : List String}

theorem MadeOf.mono (h : i.MadeOf options imported sources texts) (hsub : imported ⊆ imported') :
    i.MadeOf options imported' sources texts := by
  cases h with
  | tag => exact .tag
  | documentNode => exact .documentNode
  | given h => exact .given h
  | beside h hsources => exact .beside h hsources
  | fragments hf => exact .fragments (hsub hf)
  | specifier hf hmodule => exact .specifier (hsub hf) hmodule
  | apollo => exact .apollo
  | composition => exact .composition
  | urql => exact .urql

/-- A path is plain exactly if all that it is made of is. -/
theorem MadeOf.plain_iff (h : i.MadeOf options imported sources texts)
    (hpath : i.path? = some path) : Plain path ↔ ∀ text ∈ texts, Plain text := by
  have hone : ∀ text : String, Plain text ↔ ∀ t ∈ [text], Plain t := fun text =>
    List.forall_mem_singleton.symm
  cases h with
  | given h =>
      obtain rfl := Option.some.inj hpath
      exact plain_dropExtension.trans (hone _)
  | beside h hsources =>
      obtain rfl := Option.some.inj hpath
      have hjs : Plain (if options.legacyImports then "" else ".js") := by
        cases options.legacyImports <;> decide
      have hbeside : Plain "./" := by decide
      rw [plain_append, plain_append, and_iff_left hjs, and_iff_right hbeside]
      exact hone _
  | specifier hf hmodule =>
      obtain rfl := Option.some.inj hpath
      rw [hmodule]
      exact plain_specifier
  | tag | documentNode | fragments _ | apollo | composition | urql =>
      obtain rfl := Option.some.inj hpath
      exact hone _

/-- A line quotes its path exactly if all that the path is made of is plain, and the names it binds
open no literal. -/
theorem MadeOf.quotes_iff (h : i.MadeOf options imported sources texts)
    (hpath : i.path? = some path) : Quotes i.render path ↔
      (∀ text ∈ texts, Plain text) ∧ behindOpening? i.clause.toList = none := by
  rw [render_eq hpath, quotes_importFrom_iff, h.plain_iff hpath]

end Import

namespace Collection

variable {c : Collection} {options : Options} {sources : List Path} {is : List Import} {m : Module}
  {i : Import}

/-! ## What paths are made of -/

theorem madeOf_externalModule (h : externalModule options sources = .ok path)
    (imported : List ImportedFragment) :
    ∃ texts, Import.MadeOf options imported sources (.operations path) texts := by
  unfold externalModule at h
  split at h
  · cases h
  · rename_i text hmodule
    obtain rfl := Except.ok.inj h
    exact ⟨[text], .given hmodule⟩
  · rename_i hmodule
    split at h
    · rename_i source
      obtain rfl := Except.ok.inj h
      exact ⟨[source.stem], .beside hmodule rfl⟩
    · cases h

theorem madeOf_fragmentImports {n : Naming} (hi : i ∈ c.fragmentImports n) :
    ∃ texts, i.MadeOf options c.imported sources texts := by
  obtain ⟨g, hg, rfl⟩ := List.mem_map.mp hi
  obtain ⟨constant, hconstant⟩ := List.exists_mem_of_ne_nil _ (formed_groupConstants _ g hg).1
  obtain ⟨f, hf, _, hmodule, _⟩ := fragmentImports_constants.mp ⟨g.2, hi, hconstant⟩
  rw [← hmodule]
  exact ⟨[f.module], .fragments hf⟩

theorem madeOf_documentImports (h : c.documentImports options sources = .ok is) (hi : i ∈ is) :
    ∃ texts, i.MadeOf options c.imported sources texts := by
  have hdeclared : ∀ {x : Import} {texts : List String}, x.MadeOf options c.imported sources texts →
      i ∈ (if c.isEmpty then [] else [x]) →
      ∃ texts, i.MadeOf options c.imported sources texts := by
    intro x texts hx hmem
    split at hmem
    · exact absurd hmem List.not_mem_nil
    · rw [List.mem_singleton.mp hmem]
      exact ⟨texts, hx⟩
  rcases documentImports_cases h with ⟨_, rfl⟩ | ⟨_, rfl⟩ | ⟨_, rfl⟩ | ⟨_, rfl⟩ |
    ⟨_, _, module, hmodule, rfl⟩ | ⟨_, _, rfl⟩
  · exact (List.mem_append.mp hi).elim (hdeclared .tag) madeOf_fragmentImports
  · exact hdeclared .documentNode hi
  · exact (List.mem_append.mp hi).elim (hdeclared .documentNode) madeOf_fragmentImports
  · exact madeOf_fragmentImports hi
  · rw [List.mem_singleton.mp hi]
    exact madeOf_externalModule hmodule c.imported
  · exact absurd hi List.not_mem_nil

theorem madeOf_client {imported : List ImportedFragment} (hi : i ∈ options.client.imports options)
    (hpath : i.path? = some path) : ∃ texts, i.MadeOf options imported sources texts := by
  unfold Client.imports at hi
  split at hi
  · simp only [Apollo.imports, List.mem_cons, List.not_mem_nil, or_false] at hi
    rcases hi with rfl | rfl | rfl
    · exact ⟨_, .apollo⟩
    · exact ⟨_, .composition⟩
    · cases hpath
  · simp only [Urql.imports, List.mem_cons, List.not_mem_nil, or_false] at hi
    rcases hi with rfl | rfl
    · exact ⟨_, .urql⟩
    · cases hpath

/-- The path of every import in a module is made of options and of file names. -/
theorem exists_madeOf (hm : c.generate options sources = .ok m) (hi : i ∈ m.imports)
    (hpath : i.path? = some path) : ∃ texts, i.MadeOf options c.imported sources texts := by
  obtain ⟨is, his, hmakes⟩ := makes_of_generate hm
  rcases hmakes.mem_imports.mp hi with hi | ⟨hi, _⟩
  · exact madeOf_documentImports his hi
  · exact madeOf_client hi hpath

end Collection

/-- A line that imports from a path quotes it exactly if the texts that the path is made of are
plain, and the names that it binds open no literal. -/
theorem quoted_iff_plain {schema : Schema} {options : Options} {offered : List ImportedFragment}
    {ds : List Document} {m : Module} (hm : generate schema options offered ds = .ok m) :
    (∀ line, line ∈ m.prepend ↔ ∃ i ∈ m.imports, i.render = line) ∧
    ∀ i ∈ m.imports, ∀ path, i.path? = some path →
      (∃ texts, i.MadeOf options offered (ds.map Document.location) texts) ∧
      ∀ texts, i.MadeOf options offered (ds.map Document.location) texts →
        (Quotes i.render path ↔
          (∀ text ∈ texts, Plain text) ∧ behindOpening? i.clause.toList = none) := by
  refine ⟨fun line => Module.mem_prepend, fun i hi path hpath => ?_⟩
  refine ⟨?_, fun texts h => h.quotes_iff hpath⟩
  obtain ⟨c, hc, hm⟩ := Outcome.bind_eq_ok.mp hm
  obtain ⟨_, _, hm⟩ := Outcome.bind_eq_ok.mp hm
  obtain ⟨texts, h⟩ := Collection.exists_madeOf hm hi hpath
  refine ⟨texts, h.mono ?_⟩
  rw [(Collection.ofDocuments_eq_ok.mp hc).imported]
  exact List.filter_subset_self _

/-- A query that spreads a fragment from a directory with an apostrophe in its name. -/
def bulletin : Document := ⟨⟨"bulletin.graphql"⟩, [.operation (.bare "Bulletin" ["News"])]⟩

def news : Document := ⟨⟨"what's/new.graphql"⟩, [.fragment (.bare "News" [])]⟩

def collectedNews : Collection := ⟨bulletin.operations, news.fragments, []⟩

theorem importedFor_bulletin : Layout.importedFor bulletin.location collectedNews ".ts" false =
    [⟨⟨news.location, .bare "News" []⟩, "./what's/new"⟩] := by
  have hother : news.location.same bulletin.location = false := by decide +kernel
  have hmodule : specifier (Layout.outputPath bulletin.location ".ts")
      (Layout.outputPath news.location ".ts") false = "./what's/new" := by decide +kernel
  have hfragments : collectedNews.fragments = [⟨news.location, .bare "News" []⟩] := rfl
  simp [Layout.importedFor, hfragments, hother, hmodule]

/-- The line of the tag quotes its path, and that of the fragment does not. -/
theorem quoted_iff_plain_bulletin : Collection.ofDocuments [bulletin, news] [] = .ok collectedNews ∧
    ∃ m, generate rootSchema (.ofMembers [])
        (Layout.importedFor bulletin.location collectedNews ".ts" false) [bulletin] = .ok m ∧
      (Import.tag ⟨"graphql-tag", none⟩ ∈ m.imports ∧
        Quotes "import gql from 'graphql-tag';" "graphql-tag") ∧
      Import.fragments "./what's/new" ["NewsFragmentDoc"] ∈ m.imports ∧
        ¬ Quotes "import \x7b NewsFragmentDoc \x7d from './what's/new';" "./what's/new" := by
  rw [importedFor_bulletin]
  obtain ⟨m, hm, himports⟩ : ∃ m, generate rootSchema (.ofMembers [])
      [⟨⟨news.location, .bare "News" []⟩, "./what's/new"⟩] [bulletin] = .ok m ∧
      m.imports.take 2 = [.tag ⟨"graphql-tag", none⟩,
        .fragments "./what's/new" ["NewsFragmentDoc"]] :=
    ⟨_, rfl, by decide +kernel⟩
  have hmem : ∀ i ∈ [Import.tag ⟨"graphql-tag", none⟩,
      .fragments "./what's/new" ["NewsFragmentDoc"]], i ∈ m.imports := by
    rw [← himports]
    exact fun i => List.mem_of_mem_take
  have htag := hmem _ List.mem_cons_self
  have hfragments := hmem _ (List.mem_cons_of_mem _ List.mem_cons_self)
  obtain ⟨_, hquotes⟩ := quoted_iff_plain hm
  refine ⟨rfl, m, hm, ⟨htag, ?_⟩, hfragments, ?_⟩
  · have hspec : (Options.ofMembers []).tagImport = ⟨"graphql-tag", none⟩ := by decide +kernel
    exact ((hquotes _ htag _ rfl).2 ["graphql-tag"] (hspec ▸ .tag)).mpr (by decide +kernel)
  · have hmodule : "./what's/new" = specifier ⟨"bulletin.ts"⟩ ⟨"what's/new.ts"⟩ false := by
      decide +kernel
    have hsteps := (hquotes _ hfragments _ rfl).2 _
      (.specifier (List.mem_singleton.mpr rfl) hmodule)
    exact fun h => absurd (hsteps.mp h).1 (by decide +kernel)

def besideDocument : Options := .ofMembers
  [("documentMode", .string "external"),
    ("importDocumentNodeExternallyFrom", .string "near-operation-file"),
    ("withCompositionFunctions", .bool false)]

def lets : Document := ⟨⟨"let's.graphql"⟩, [.line 1 "Ask"]⟩

/-- An apostrophe in the name of a document ends the literal of its module. -/
theorem apostrophe_ends_literal :
    Document.parse "query Ask { a }" ⟨"let's.graphql"⟩ = .ok lets ∧
      ∃ m, generate rootSchema besideDocument [] [lets] = .ok m ∧
        m.imports = [.operations "./let's"] ∧
        m.prepend = ["import * as Operations from './let's';"] ∧
        (behindOpening? "import * as Operations from './let's';".toList).bind scan =
          some (units "./let".toList, "s';".toList) ∧
        ¬ Quotes "import * as Operations from './let's';" "./let's" := by
  have hparse : Document.parse "query Ask { a }" ⟨"let's.graphql"⟩ = .ok lets := by cbv
  obtain ⟨m, hm, himports, hprepend⟩ : ∃ m, generate rootSchema besideDocument [] [lets] = .ok m ∧
      m.imports = [.operations "./let's"] ∧
      m.prepend = ["import * as Operations from './let's';"] :=
    ⟨_, rfl, by decide +kernel, by decide +kernel⟩
  exact ⟨hparse, m, hm, himports, hprepend, by decide +kernel, by decide +kernel⟩

end Composables
