import Mathlib
import Composables.Proofs.Graphql.ReadBack
import Composables.Proofs.Graphql.Spell
import Composables.Proofs.Project.Load

/-
  Which declarations count as one. Declarations of one name are told apart by their prints, and a
  print does not tell every literal. So those that are kept once are the same but for positions and
  for what their literals stand for, and have one encoding if their literals are kept; exactly the
  others are reported (`declared_alike`).
-/

namespace Composables

open Graphql (Definition)

/-- A document that was read from a text. -/
def Document.Parsed (d : Document) : Prop := ∃ text, Document.parse text d.location = .ok d

theorem Document.Parsed.formed {d : Document} (h : d.Parsed) {x : Definition}
    (hx : x ∈ d.definitions) : x.Formed Graphql.Grammar.depthLimit := by
  obtain ⟨text, hparse⟩ := h
  exact Graphql.formed_of_parse (Document.parse_eq_ok hparse).2 x hx

/-! ## Definitions with one print -/

namespace Graphql.Definition

/-- Definitions that are the same but for positions and for what their literals stand for, and have
one encoding if their literals are kept. -/
structure Alike (x y : Definition) : Prop where
  sketch : x.sketch = y.sketch
  json : (∀ v ∈ x.literals ++ y.literals, v.Kept) → x.toJson = y.toJson

theorem alike_of_print {x y : Definition} (hx : x.Formed Grammar.depthLimit)
    (hy : y.Formed Grammar.depthLimit) (hx' : x.Named) (hy' : y.Named) (h : x.print = y.print) :
    x.Alike y := by
  refine ⟨(print_eq_iff hx hy).mp h, fun hkept => ?_⟩
  rw [List.forall_mem_append] at hkept
  obtain ⟨z, hz, hjson⟩ := (readsBack_iff hx hx').mpr hkept.1
  obtain ⟨z', hz', hjson'⟩ := (readsBack_iff hy hy').mpr hkept.2
  rw [← h, hz] at hz'
  obtain rfl := (List.cons.inj (Except.ok.inj hz')).1
  exact hjson.symm.trans hjson'

end Graphql.Definition

theorem Document.named_of_mem_operations {d : Document} {o : Operation} (h : o ∈ d.operations) :
    (Definition.operation o.definition).Named := by
  obtain ⟨x, _, ho⟩ := List.mem_filterMap.mp h
  cases x with
  | operation definition =>
      obtain ⟨n, hn, rfl⟩ := Option.map_eq_some_iff.mp ho
      rintro _ hd
      cases hd
      simp [hn]
  | shorthand => cases ho
  | fragment => cases ho

/-! ## Declarations of documents -/

variable {ds : List Document} {offered : List ImportedFragment} {e : Error}

/-- Declarations of one name are alike. -/
structure DeclaredAlike (ds : List Document) : Prop where
  operations : ∀ o ∈ ds.flatMap Document.operations, ∀ o' ∈ ds.flatMap Document.operations,
    o.name = o'.name → (Definition.operation o.definition).Alike (.operation o'.definition)
  fragments : ∀ f ∈ ds.flatMap Document.fragments, ∀ f' ∈ ds.flatMap Document.fragments,
    f.name = f'.name → (Definition.fragment f.definition).Alike (.fragment f'.definition)

/-- An error that reports two of some declarations: they have one name and different words. -/
def Reports {α : Type} [Declared α] (xs : List α) (e : Error) : Prop :=
  ∃ x ∈ xs, ∃ y ∈ xs, Declared.name x = Declared.name y ∧ Declared.source x ≠ Declared.source y ∧
    e = Declared.clash x y

/-- Declarations that agree in their words are alike. -/
theorem declaredAlike_of_agree (hparsed : ∀ d ∈ ds, d.Parsed)
    (ho : Agree (ds.flatMap Document.operations))
    (hf : Agree (ds.flatMap Document.fragments)) : DeclaredAlike ds := by
  constructor
  · intro o hmem o' hmem' hname
    have hsource := ho o hmem o' hmem' hname
    obtain ⟨d, hd, hod⟩ := List.mem_flatMap.mp hmem
    obtain ⟨d', hd', hod'⟩ := List.mem_flatMap.mp hmem'
    exact Definition.alike_of_print
      ((hparsed d hd).formed (Document.definition_mem_of_mem_operations hod).2)
      ((hparsed d' hd').formed (Document.definition_mem_of_mem_operations hod').2)
      (Document.named_of_mem_operations hod) (Document.named_of_mem_operations hod') hsource
  · intro f hmem f' hmem' hname
    have hsource := hf f hmem f' hmem' hname
    obtain ⟨d, hd, hfd⟩ := List.mem_flatMap.mp hmem
    obtain ⟨d', hd', hfd'⟩ := List.mem_flatMap.mp hmem'
    exact Definition.alike_of_print
      ((hparsed d hd).formed (Document.definition_mem_of_mem_fragments hfd).2)
      ((hparsed d' hd').formed (Document.definition_mem_of_mem_fragments hfd').2)
      nofun nofun hsource

/-! ## What is reported -/

theorem Reports.mono {α : Type} [Declared α] {xs ys : List α} (h : Reports xs e) (hsub : xs ⊆ ys) :
    Reports ys e := by
  obtain ⟨x, hx, y, hy, hreport⟩ := h
  exact ⟨x, hsub hx, y, hsub hy, hreport⟩

theorem reports_of_keep {α : Type} [Declared α] {xs : List α} {x : α} (h : keep xs x = .error e) :
    Reports (xs ++ [x]) e := by
  unfold keep at h
  split at h
  · cases h
  · rename_i first hfirst
    split at h
    · cases h
    · rename_i hsource
      cases h
      have hname : Declared.name first = Declared.name x := by simpa using List.find?_some hfirst
      exact ⟨first, List.mem_append_left _ (List.mem_of_find?_eq_some hfirst), x, by simp, hname,
        hsource, rfl⟩

/-- A step of gathering that adds some declarations: it keeps no others, and an error reports two of
them or of those that were there. -/
structure Gathers {α : Type} (f : Gathering → α → Except Error Gathering) (os : α → List Operation)
    (fs : α → List Fragment) : Prop where
  ok : ∀ g x g', f g x = .ok g' →
    g'.operations ⊆ g.operations ++ os x ∧ g'.fragments ⊆ g.fragments ++ fs x
  error : ∀ g x e, f g x = .error e →
    Reports (g.operations ++ os x) e ∨ Reports (g.fragments ++ fs x) e

theorem gathers_add (file : Path) :
    Gathers (fun g x => g.add file x) (fun x => (x.operation? file).toList)
      fun x => (x.fragment? file).toList := by
  constructor
  · intro g x g' h
    obtain ⟨ho, hf⟩ := (Gathering.add_eq_ok file g g' x).mp h
    rw [(foldlM_keep_eq_ok'.mp ho).2, (foldlM_keep_eq_ok'.mp hf).2]
    exact ⟨(sublist_foldl_addNew _ _).subset, (sublist_foldl_addNew _ _).subset⟩
  · intro g x e h
    cases x with
    | shorthand => cases h
    | operation definition =>
        refine .inl ?_
        simp only [Gathering.add, Definition.operation?] at h ⊢
        cases ho : Operation.ofDefinition? file definition with
        | none =>
            rw [ho] at h
            cases h
        | some o =>
            rw [ho] at h
            exact reports_of_keep (Outcome.map_eq_error.mp h)
    | fragment definition => exact .inr (reports_of_keep (Outcome.map_eq_error.mp h))

theorem append_subset_append {α : Type} {xs ys zs : List α} (h : xs ⊆ ys) :
    xs ++ zs ⊆ ys ++ zs := by
  rw [List.append_subset]
  exact ⟨List.subset_append_of_subset_left zs h, List.subset_append_right ys zs⟩

/-- What holds of a step holds of a run. -/
theorem Gathers.foldlM {α : Type} {f : Gathering → α → Except Error Gathering}
    {os : α → List Operation} {fs : α → List Fragment} (h : Gathers f os fs) :
    Gathers (fun g (xs : List α) => xs.foldlM f g) (·.flatMap os) (·.flatMap fs) := by
  constructor
  · intro g xs g' hrun
    induction xs generalizing g with
    | nil =>
        cases hrun
        simp
    | cons x xs ih =>
        rw [List.foldlM_cons] at hrun
        obtain ⟨next, hnext, hrun⟩ := Outcome.bind_eq_ok.mp hrun
        obtain ⟨ho, hf⟩ := h.ok g x next hnext
        obtain ⟨ho', hf'⟩ := ih next hrun
        rw [List.flatMap_cons, List.flatMap_cons, ← List.append_assoc, ← List.append_assoc]
        exact ⟨List.Subset.trans ho' (append_subset_append ho),
          List.Subset.trans hf' (append_subset_append hf)⟩
  · intro g xs e hrun
    induction xs generalizing g with
    | nil => cases hrun
    | cons x xs ih =>
        rw [List.foldlM_cons] at hrun
        rw [List.flatMap_cons, List.flatMap_cons, ← List.append_assoc, ← List.append_assoc]
        cases hnext : f g x with
        | error e' =>
            rw [hnext] at hrun
            cases hrun
            exact (h.error g x e hnext).imp (fun hr => hr.mono (List.subset_append_left _ _))
              fun hr => hr.mono (List.subset_append_left _ _)
        | ok next =>
            rw [hnext] at hrun
            obtain ⟨ho, hf⟩ := h.ok g x next hnext
            exact (ih next hrun).imp (fun hr => hr.mono (append_subset_append ho)) fun hr =>
              hr.mono (append_subset_append hf)

/-- Where gathering documents fails, two of their declarations are reported. -/
theorem reports_of_gather (h : Gathering.ofDocuments ds = .error e) :
    Reports (ds.flatMap Document.operations) e ∨ Reports (ds.flatMap Document.fragments) e := by
  have hdocument : Gathers Gathering.addDocument Document.operations Document.fragments := by
    have hrun : ∀ d : Document, _ := fun d => (gathers_add d.location).foldlM
    refine ⟨fun g d g' hg => ?_, fun g d e hg => ?_⟩
    · rw [Document.operations, Document.fragments, ← Gathering.flatMap_toList,
        ← Gathering.flatMap_toList]
      exact (hrun d).ok g d.definitions g' hg
    · rw [Document.operations, Document.fragments, ← Gathering.flatMap_toList,
        ← Gathering.flatMap_toList]
      exact (hrun d).error g d.definitions e hg
  exact hdocument.foldlM.error .empty ds e h

/-- Declarations that are alike are not reported. -/
theorem DeclaredAlike.not_reports (h : DeclaredAlike ds) :
    ¬ (Reports (ds.flatMap Document.operations) e ∨ Reports (ds.flatMap Document.fragments) e) := by
  rintro (⟨o, ho, o', ho', hname, hsource, _⟩ | ⟨f, hf, f', hf', hname, hsource, _⟩)
  · exact hsource (Definition.print_of_sketch (h.operations o ho o' ho' hname).sketch)
  · exact hsource (Definition.print_of_sketch (h.fragments f hf f' hf' hname).sketch)

/-- Declarations of one name that are kept once are alike, and two of one name and different words
are reported exactly if some are not. -/
theorem declared_alike (hparsed : ∀ d ∈ ds, d.Parsed) (offered : List ImportedFragment) :
    (∀ c, Collection.ofDocuments ds offered = .ok c → DeclaredAlike ds) ∧
      (¬ DeclaredAlike ds ↔ ∃ e, Collection.ofDocuments ds offered = .error e ∧
        (Reports (ds.flatMap Document.operations) e ∨
          Reports (ds.flatMap Document.fragments) e)) := by
  refine ⟨fun c hc => ?_, fun hdiffer => ?_, fun ⟨e, _, hreports⟩ h => h.not_reports hreports⟩
  · have hcollects := Collection.ofDocuments_eq_ok.mp hc
    exact declaredAlike_of_agree hparsed hcollects.operations_agree hcollects.fragments_agree
  · cases hg : Gathering.ofDocuments ds with
    | ok g =>
        obtain ⟨⟨ho, _⟩, hf, _⟩ := Gathering.ofDocuments_eq_ok.mp hg
        exact absurd (declaredAlike_of_agree hparsed ho hf) hdiffer
    | error e =>
        refine ⟨e, ?_, reports_of_gather hg⟩
        rw [Collection.ofDocuments, hg]
        rfl

/-! ## A query with a number -/

def askText (number : String) : String := "query Ask \x7b a(x: " ++ number ++ ") \x7d"

def askQuery (x : Graphql.Value) : Graphql.OperationDefinition :=
  ⟨⟨1, 1⟩, .query, some "Ask", [], [], [.field ⟨1, 13⟩ none "a" [("x", x)] [] []]⟩

def ask (file : Path) (x : Graphql.Value) : Document := ⟨file, [.operation (askQuery x)]⟩

def askLexemes (token : Graphql.Token) (width : Nat) : List Graphql.Lexeme :=
  [⟨⟨1, 1⟩, .name "query"⟩, ⟨⟨1, 7⟩, .name "Ask"⟩, ⟨⟨1, 11⟩, .symbol '\x7b'⟩, ⟨⟨1, 13⟩, .name "a"⟩,
    ⟨⟨1, 14⟩, .symbol '('⟩, ⟨⟨1, 15⟩, .name "x"⟩, ⟨⟨1, 16⟩, .symbol ':'⟩, ⟨⟨1, 18⟩, token⟩,
    ⟨⟨1, 18 + width⟩, .symbol ')'⟩, ⟨⟨1, 20 + width⟩, .symbol '\x7d'⟩]

theorem parse_ask {number : String} {x : Graphql.Value} (file : Path) (token : Graphql.Token)
    (width : Nat) (hx : token.value? = some x)
    (h : Graphql.Scan.ofText (askText number).toList =
      ⟨askLexemes token width, ⟨1, 21 + width⟩, true⟩) :
    Document.parse (askText number) file = .ok (ask file x) := by
  have hparse : Graphql.parseDocument (askText number) = .ok [.operation (askQuery x)] := by
    unfold Graphql.parseDocument Graphql.Parser.run
    rw [h]
    cases token with
    | symbol c => cases hx
    | spread => cases hx
    | name s =>
        obtain rfl := Option.some.inj hx
        cbv
    | _ =>
        cases hx
        cbv
  rw [Document.parse, hparse]
  rfl

/-- One and a half, and one, as floats. -/
def oneAndAHalf : Decimal.Binary64 := .finite false 6755399441055744 (-52)

def oneAsFloat : Decimal.Binary64 := .finite false 4503599627370496 (-52)

theorem parse_ask_half (file : Path) :
    Document.parse (askText "1.5") file = .ok (ask file (.float oneAndAHalf)) :=
  parse_ask file (.float oneAndAHalf) 3 rfl (by decide +kernel)

theorem parse_ask_one (file : Path) :
    Document.parse (askText "1.0") file = .ok (ask file (.float oneAsFloat)) :=
  parse_ask file (.float oneAsFloat) 3 rfl (by decide +kernel)

theorem parse_ask_int (file : Path) : Document.parse (askText "1") file = .ok (ask file (.int 1)) :=
  parse_ask file (.int 1) 1 rfl (by decide +kernel)

theorem print_ask {x y : Graphql.Value} (h : x.print 2 = y.print 2) :
    (askQuery x).print = (askQuery y).print := by
  simp only [askQuery, Graphql.OperationDefinition.print, Graphql.printSet, Graphql.printSelections,
    Graphql.Selection.print, Graphql.printArguments, Graphql.printFields, h,
    Graphql.OperationDefinition.printVariables]
  rfl

theorem toJson_ask {x y : Graphql.Value} (h : (askQuery x).toJson = (askQuery y).toJson) :
    x.toJson = y.toJson := by
  simpa [askQuery, Graphql.OperationDefinition.toJson, Graphql.operationNode,
    Graphql.kindNode_injective, Graphql.setNode, Graphql.listField, Graphql.selectionNodes,
    Graphql.Selection.toJson, Graphql.argumentsField, Graphql.labelledNodes] using h

/-- Two queries with one print are kept once. -/
theorem exists_merged {x y : Graphql.Value} (h : (askQuery x).print = (askQuery y).print)
    (file file' : Path) :
    ∃ c, Collection.ofDocuments [ask file x, ask file' y] [] = .ok c ∧
      c.operations.map Operation.definition = [askQuery x] := by
  have hagree : Agree [Operation.mk file "Ask" (askQuery x), ⟨file', "Ask", askQuery y⟩] := by
    intro o ho o' ho' _
    simp only [List.mem_cons, List.not_mem_nil, or_false] at ho ho'
    rcases ho with rfl | rfl <;> rcases ho' with rfl | rfl
    exacts [rfl, h, h.symm, rfl]
  obtain ⟨c, hc⟩ : ∃ c, Collection.ofDocuments [ask file x, ask file' y] [] = .ok c := by
    refine Collection.ofDocuments_ok hagree nofun ?_ ?_ nofun
    · rintro n hcycle
      obtain ⟨_, ⟨f, hf, _⟩, _⟩ := Relation.TransGen.head'_iff.mp hcycle
      exact absurd hf List.not_mem_nil
    · intro o ho s hs
      rcases List.mem_cons.mp (mem_of_mem_firsts ho) with rfl | ho
      · cases hs
      · cases List.mem_singleton.mp ho
        cases hs
  refine ⟨c, hc, ?_⟩
  rw [(Collection.ofDocuments_eq_ok.mp hc).operations]
  rfl

/-- A query that comes twice is kept once; with another number it is reported. -/
theorem declared_alike_ask :
    (∃ c, Collection.ofDocuments
        [ask ⟨"a.graphql"⟩ (.int 1), ask ⟨"b.graphql"⟩ (.int 1)] [] = .ok c ∧
        DeclaredAlike [ask ⟨"a.graphql"⟩ (.int 1), ask ⟨"b.graphql"⟩ (.int 1)]) ∧
      ∃ e, Collection.ofDocuments
        [ask ⟨"a.graphql"⟩ (.int 1), ask ⟨"b.graphql"⟩ (.float oneAndAHalf)] [] = .error e ∧
        (Reports [Operation.mk ⟨"a.graphql"⟩ "Ask" (askQuery (.int 1)),
          ⟨⟨"b.graphql"⟩, "Ask", askQuery (.float oneAndAHalf)⟩] e ∨
          Reports ([] : List Fragment) e) := by
  have hint : ∀ file, (ask file (.int 1)).Parsed := fun file => ⟨_, parse_ask_int file⟩
  have hhalf : ∀ file, (ask file (.float oneAndAHalf)).Parsed :=
    fun file => ⟨_, parse_ask_half file⟩
  constructor
  · obtain ⟨c, hc, _⟩ := exists_merged (x := .int 1) (y := .int 1) rfl ⟨"a.graphql"⟩ ⟨"b.graphql"⟩
    exact ⟨c, hc, (declared_alike (by simpa using ⟨hint _, hint _⟩) []).1 c hc⟩
  · refine (declared_alike (by simpa using ⟨hint _, hhalf _⟩) []).2.mp fun halike => ?_
    have hjson := (halike.operations ⟨⟨"a.graphql"⟩, "Ask", askQuery (.int 1)⟩ (.head _)
      ⟨⟨"b.graphql"⟩, "Ask", askQuery (.float oneAndAHalf)⟩ (.tail _ (.head _)) rfl).json
    have hkept : ∀ v ∈ [Graphql.Value.int 1, .float oneAndAHalf], v.Kept := by decide +kernel
    exact absurd (toJson_ask (hjson hkept))
      (by simp [Graphql.Value.toJson, Graphql.kindNode_injective])

/-- A whole float and an integer have one print, so that the second query is dropped. -/
theorem whole_float_merged : ∃ c,
    Document.parse (askText "1") ⟨"a.graphql"⟩ = .ok (ask ⟨"a.graphql"⟩ (.int 1)) ∧
      Document.parse (askText "1.0") ⟨"b.graphql"⟩ = .ok (ask ⟨"b.graphql"⟩ (.float oneAsFloat)) ∧
      Collection.ofDocuments
        [ask ⟨"a.graphql"⟩ (.int 1), ask ⟨"b.graphql"⟩ (.float oneAsFloat)] [] = .ok c ∧
      c.operations.map Operation.definition = [askQuery (.int 1)] ∧
      (askQuery (.int 1)).toJson ≠ (askQuery (.float oneAsFloat)).toJson := by
  have hprint : (Graphql.Value.int 1).print 2 = (Graphql.Value.float oneAsFloat).print 2 := by
    decide +kernel
  obtain ⟨c, hc, hkept⟩ := exists_merged (print_ask hprint) ⟨"a.graphql"⟩ ⟨"b.graphql"⟩
  refine ⟨c, parse_ask_int _, parse_ask_one _, hc, hkept, fun h => ?_⟩
  exact absurd (toJson_ask h) (by simp [Graphql.Value.toJson, Graphql.kindNode_injective])

end Composables
