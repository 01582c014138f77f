import Composables.Document
import Composables.Proofs.Naming.Lossless

/-
  When generated names are identifiers. With fitting affixes all of their signs are
  (`signs_convert`), so that only the first sign matters. It is a digit, or missing, only if
  underscores in front of a name are dropped and nothing stands before it
  (`isName_convert_append`). Functions are always called by identifiers.
-/

namespace Composables.Naming

open Graphql (IsName OperationKind)
open Graphql.Token (isNameChar isNameStart)

variable {n : Naming} {name p s t : String} {kind : OperationKind}

/-! ## Signs of identifiers -/

/-- Letters, digits and underscores. -/
def Signs (s : String) : Prop := ∀ c ∈ s.toList, isNameChar c

theorem signs_empty : Signs "" := nofun

theorem Signs.append (hs : Signs s) (ht : Signs t) : Signs (s ++ t) := by
  intro c hc
  rw [String.toList_append] at hc
  exact (List.mem_append.mp hc).elim (hs c) (ht c)

theorem signs_of {cs : List Char} (hs : s.toList = cs) (h : cs.all isNameChar = true) :
    Signs s := by
  rw [Signs, hs]
  exact List.all_eq_true.mp h

theorem signs_of_isName (h : IsName s) : Signs s := isNameChar_of_isName h

/-- Of the signs of identifiers, only digits do not open one. -/
theorem isNameStart_iff {c : Char} (hc : isNameChar c) : isNameStart c ↔ c.isDigit = false := by
  rw [isNameChar, Char.isAlphanum, Bool.or_eq_true, Bool.or_eq_true] at hc
  rw [isNameStart, Bool.or_eq_true]
  constructor
  · rintro (halpha | hunderscore)
    · exact isDigit_of_isAlpha halpha
    · rw [beq_iff_eq.mp hunderscore]
      rfl
  · intro hdigit
    rcases hc with (halpha | hdigit') | hunderscore
    · exact .inl halpha
    · rw [hdigit] at hdigit'
      cases hdigit'
    · exact .inr hunderscore

theorem isName_iff (hs : Signs s) : IsName s ↔ ∃ c ∈ s.toList.head?, c.isDigit = false := by
  constructor
  · rintro ⟨c, cs, hcs, hc, -⟩
    refine ⟨c, by rw [hcs]; rfl, ?_⟩
    exact (isNameStart_iff (hs c (by rw [hcs]; exact List.mem_cons_self))).mp hc
  · rintro ⟨c, hc, hdigit⟩
    obtain ⟨cs, hcs⟩ := List.head?_eq_some_iff.mp hc
    rw [Signs, hcs, List.forall_mem_cons] at hs
    exact ⟨c, cs, hcs, (isNameStart_iff hs.1).mpr hdigit, hs.2⟩

theorem isName_append (hs : IsName s) (ht : Signs t) : IsName (s ++ t) := by
  obtain ⟨c, cs, hcs, hc, hrest⟩ := hs
  refine ⟨c, cs ++ t.toList, by rw [String.toList_append, hcs]; rfl, hc, fun d hd => ?_⟩
  exact (List.mem_append.mp hd).elim (hrest d) (ht d)

/-- Behind a prefix that is an identifier, all is well. -/
theorem isName_append_iff (hp : p = "" ∨ IsName p) (hs : Signs s) :
    IsName (p ++ s) ↔ p ≠ "" ∨ IsName s := by
  rcases hp with rfl | hp
  · rw [String.empty_append]
    simp
  · refine iff_of_true (isName_append hp hs) (.inl ?_)
    rintro rfl
    obtain ⟨c, cs, hcs, -⟩ := hp
    cases hcs

theorem isName_word (kind : OperationKind) : IsName kind.word := by
  cases kind <;> exact Graphql.isName_of rfl (by decide)

theorem signs_suffix (n : Naming) (name : String) (kind : OperationKind) :
    Signs (n.suffix name kind) := by
  rcases n.suffix_cases name kind with h | h
  · rw [h]
    exact signs_empty
  · rw [h]
    exact signs_of_isName (isName_word kind)

/-- What stands behind a name opens with the word of its kind, unless that is left out. -/
theorem isName_suffix_append (ht : Signs t) :
    IsName (n.suffix name kind ++ t) ↔ (n.suffix name kind = "" → IsName t) := by
  rw [imp_iff_not_or]
  refine isName_append_iff ?_ ht
  rcases n.suffix_cases name kind with h | h
  · exact .inl h
  · rw [h]
    exact .inr (isName_word kind)

/-! ## Converted names -/

/-- Underscores in front of a name are dropped. -/
def Drops (n : Naming) : Prop := n.convention = .pascalCase ∧ n.transformUnderscore = true

theorem kept_or_drops (n : Naming) : n.Kept ∨ n.Drops := by
  unfold Kept Drops
  cases n.convention <;> cases n.transformUnderscore <;> simp

theorem not_drops (h : n.Kept) : ¬ n.Drops := by
  rintro ⟨hpascal, htransform⟩
  rcases h with hkeep | ⟨-, hkept⟩
  · rw [hkeep] at hpascal
    cases hpascal
  · rw [hkept] at htransform
    cases htransform

theorem toList_convert (h : n.Drops) (name : String) :
    (n.convert name).toList = pascalCase name.toList := by
  rw [convert, h.1]
  dsimp only
  rw [if_pos h.2, pascal, String.toList_ofList]

theorem isNameChar_toLower (c : Char) : isNameChar c.toLower = isNameChar c := by
  by_cases hupper : c.isUpper
  · have halphanum : c.isAlphanum := by
      rw [Char.isAlphanum, isAlpha_of_isUpper hupper, Bool.true_or]
    rw [isNameChar, isAlphanum_toLower, isNameChar, halphanum, Bool.true_or, Bool.true_or]
  · rw [Char.toLower_eq_of_not_isUpper hupper]

theorem signs_convert (h : Signs name) : Signs (n.convert name) := by
  intro c hc
  rcases n.kept_or_drops with hkept | hdrops
  · have hlower : c.toLower ∈ lower name := by
      rw [← lower_convert hkept h]
      exact List.mem_map_of_mem hc
    obtain ⟨d, hd, hcd⟩ := List.mem_map.mp hlower
    rw [← isNameChar_toLower, ← hcd, isNameChar_toLower, h d hd]
  · rw [toList_convert hdrops] at hc
    rcases mem_pascalCase hc with halphanum | ⟨rfl, -⟩
    · rw [isNameChar, halphanum, Bool.true_or]
    · rfl

theorem isName_convert (hkept : n.Kept) (h : IsName name) : IsName (n.convert name) := by
  have hsigns := signs_of_isName h
  obtain ⟨c, hc, hdigit⟩ := (isName_iff hsigns).mp h
  have hlower := congrArg List.head? (lower_convert hkept hsigns)
  rw [lower, lower, List.head?_map, List.head?_map, hc] at hlower
  obtain ⟨d, hd, hdc⟩ := Option.map_eq_some_iff.mp hlower
  refine (isName_iff (signs_convert hsigns)).mpr ⟨d, hd, ?_⟩
  rw [← isDigit_toLower, hdc, isDigit_toLower, hdigit]

/-- What is left of a name opens with a digit. -/
def Numbered (n : Naming) (name : String) : Prop :=
  n.Drops ∧ ∃ c ∈ name.toList.find? Char.isAlphanum, c.isDigit

/-- Nothing is left of a name. -/
def Blank (n : Naming) (name : String) : Prop :=
  n.Drops ∧ name.toList.find? Char.isAlphanum = none

/-- In front of other signs, a converted name makes an identifier unless it opens with a digit; if
it is empty, these have to do so. -/
theorem isName_convert_append (hname : IsName name) (ht : Signs t) :
    IsName (n.convert name ++ t) ↔ ¬ n.Numbered name ∧ (n.Blank name → IsName t) := by
  rcases n.kept_or_drops with hkept | hdrops
  · exact iff_of_true (isName_append (isName_convert hkept hname) ht)
      ⟨fun h => not_drops hkept h.1, fun h => absurd h.1 (not_drops hkept)⟩
  · have hhead := head?_pascalCase name.toList
    unfold Numbered Blank
    rw [← toList_convert hdrops] at hhead
    cases hfirst : name.toList.find? Char.isAlphanum with
    | none =>
        rw [hfirst, Option.map_none, List.head?_eq_none_iff, String.toList_eq_nil_iff] at hhead
        rw [hhead, String.empty_append]
        simp [hdrops]
    | some c =>
        rw [hfirst, Option.map_some] at hhead
        rw [isName_iff ((signs_convert (signs_of_isName hname)).append ht), String.toList_append,
          List.head?_append, hhead, Option.some_or]
        simp [hdrops, isDigit_toUpper]

/-! ## Generated names -/

/-- Prefixes are identifiers or empty, and suffixes have no other signs than identifiers. -/
structure Fitting (n : Naming) : Prop where
  prefixes : ∀ p ∈ [n.typesPrefix, n.documentVariablePrefix, n.fragmentVariablePrefix],
    p = "" ∨ IsName p
  suffixes : ∀ s ∈ [n.typesSuffix, n.operationResultSuffix, n.documentVariableSuffix,
    n.fragmentVariableSuffix], Signs s

/-- The affixes that are not given suit. -/
theorem Fitting.of_standard (htypesSuffix : n.typesSuffix = "")
    (hresult : n.operationResultSuffix = "") (hdocument : n.documentVariableSuffix = "Document")
    (hfragment : n.fragmentVariableSuffix = "FragmentDoc")
    (hprefixes : ∀ p ∈ [n.typesPrefix, n.documentVariablePrefix, n.fragmentVariablePrefix],
      p = "" ∨ IsName p) : n.Fitting where
  prefixes := hprefixes
  suffixes := by
    rw [htypesSuffix, hresult, hdocument, hfragment]
    simp only [List.forall_mem_cons]
    exact ⟨signs_empty, signs_empty, signs_of rfl (by decide), signs_of rfl (by decide), nofun⟩

theorem signs_withoutKind (h : Signs name) (kind : OperationKind) :
    Signs (withoutKind name kind) := by
  unfold withoutKind
  dsimp only
  split
  · exact h
  · intro c hc
    rw [String.toList_ofList, List.mem_reverse] at hc
    have hdrop := (List.dropWhile_suffix _).subset hc
    exact h c (List.mem_reverse.mp (List.mem_of_mem_drop hdrop))

theorem signs_stem (h : Signs name) : Signs (n.stem name kind) := by
  refine signs_convert ?_
  split
  · exact signs_withoutKind h kind
  · exact h

theorem isName_function (h : IsName name) : IsName (n.function name kind) :=
  isName_append (Graphql.isName_of rfl (by decide))
    ((signs_convert (signs_of_isName h)).append (n.signs_suffix name kind))

theorem isName_lazyFunction (h : IsName name) : IsName (n.lazyFunction name kind) := by
  rw [lazyFunction_eq, String.append_assoc]
  refine isName_append (Graphql.isName_of rfl (by decide))
    ((signs_stem (signs_of_isName h)).append ?_)
  exact signs_of_isName (Graphql.isName_of rfl (by decide))

/-- A prefix, a converted name and a suffix make an identifier. -/
theorem isName_affixed_iff (hname : IsName name) (hp : p = "" ∨ IsName p) (hs : Signs s) :
    IsName (p ++ n.convert name ++ s) ↔
      p ≠ "" ∨ ¬ n.Numbered name ∧ (n.Blank name → IsName s) := by
  rw [String.append_assoc,
    isName_append_iff hp ((signs_convert (signs_of_isName hname)).append hs),
    isName_convert_append hname hs]

/-- The same with the word of an operation's kind behind its name, where that is not left out. -/
theorem isName_based_iff (hname : IsName name) (hp : p = "" ∨ IsName p) (hs : Signs s) :
    IsName (p ++ n.base name kind ++ s) ↔ p ≠ "" ∨
      ¬ n.Numbered name ∧ (n.Blank name → n.suffix name kind = "" → IsName s) := by
  have hassoc : p ++ n.base name kind ++ s =
      p ++ n.convert name ++ (n.suffix name kind ++ s) := by
    simp only [base, String.append_assoc]
  rw [hassoc, isName_affixed_iff hname hp ((n.signs_suffix name kind).append hs),
    isName_suffix_append hs]

/-- For a GraphQL name and fitting affixes, functions are called by identifiers. The other names are
identifiers as well, except where nothing stands in front of a converted name that opens with a
digit, or where nothing is left of a name and what stands behind it is no identifier either. Both
come from underscores that are dropped at the front of a name. -/
theorem isName_generated_iff (hname : IsName name) (hn : n.Fitting) :
    IsName (n.function name kind) ∧ IsName (n.lazyFunction name kind) ∧
      (IsName (n.resultAlias name kind) ↔ ¬ n.Numbered name) ∧
      (IsName (n.variablesType name kind) ↔ n.typesPrefix ≠ "" ∨ ¬ n.Numbered name) ∧
      (IsName (n.resultType name kind) ↔ n.typesPrefix ≠ "" ∨ ¬ n.Numbered name ∧
        (n.Blank name → n.suffix name kind = "" →
          IsName (n.operationResultSuffix ++ n.typesSuffix))) ∧
      (IsName (n.documentConstant name) ↔ n.documentVariablePrefix ≠ "" ∨ ¬ n.Numbered name ∧
        (n.Blank name → IsName n.documentVariableSuffix)) ∧
      (IsName (n.fragmentConstant name) ↔ n.fragmentVariablePrefix ≠ "" ∨ ¬ n.Numbered name ∧
        (n.Blank name → IsName n.fragmentVariableSuffix)) := by
  obtain ⟨htypes, hdocument, hfragment⟩ : _ ∧ _ ∧ _ := by simpa using hn.prefixes
  obtain ⟨htypesSuffix, hresult, hdocumentSuffix, hfragmentSuffix⟩ : _ ∧ _ ∧ _ ∧ _ := by
    simpa using hn.suffixes
  have hvariables : IsName ("Variables" ++ n.typesSuffix) :=
    isName_append (Graphql.isName_of rfl (by decide)) htypesSuffix
  have halias : IsName "CompositionFunctionResult" := Graphql.isName_of rfl (by decide)
  refine ⟨isName_function hname, isName_lazyFunction hname, ?_, ?_, ?_,
    isName_affixed_iff hname hdocument hdocumentSuffix,
    isName_affixed_iff hname hfragment hfragmentSuffix⟩
  · have hassoc : n.resultAlias name kind =
        "" ++ n.base name kind ++ "CompositionFunctionResult" := by
      rw [String.empty_append, resultAlias]
    rw [hassoc, isName_based_iff hname (.inl rfl) (signs_of_isName halias)]
    simp [halias]
  · have hassoc : n.variablesType name kind =
        n.typesPrefix ++ n.base name kind ++ ("Variables" ++ n.typesSuffix) := String.append_assoc
    rw [hassoc, isName_based_iff hname htypes (signs_of_isName hvariables)]
    simp [hvariables]
  · have hassoc : n.resultType name kind = n.typesPrefix ++ n.base name kind ++
        (n.operationResultSuffix ++ n.typesSuffix) := String.append_assoc
    rw [hassoc, isName_based_iff hname htypes (hresult.append htypesSuffix)]

/-- A prefix makes a constant's name an identifier where what is left of a name opens with a
digit. -/
theorem isName_generated_iff_2fa :
    let n := (Options.ofMembers [("transformUnderscore", .bool true),
      ("documentVariablePrefix", .string "doc")]).naming
    IsName "_2fa" ∧ n.Fitting ∧ IsName (n.function "_2fa" .query) ∧
      IsName (n.documentConstant "_2fa") ∧ ¬ IsName (n.fragmentConstant "_2fa") := by
  intro n
  have hname : IsName "_2fa" := Graphql.isName_of rfl (by decide)
  have hdoc : IsName "doc" := Graphql.isName_of rfl (by decide)
  have hn : n.Fitting := by
    refine .of_standard rfl rfl rfl rfl ?_
    show ∀ p ∈ ["", "doc", ""], p = "" ∨ IsName p
    simp [hdoc]
  have hnumbered : n.Numbered "_2fa" := ⟨⟨rfl, rfl⟩, '2', rfl, rfl⟩
  obtain ⟨hfunction, -, -, -, -, hdocument, hfragment⟩ :=
    @isName_generated_iff n "_2fa" .query hname hn
  refine ⟨hname, hn, hfunction, hdocument.mpr (.inl (by decide)), fun h => ?_⟩
  rcases hfragment.mp h with hprefix | ⟨hopens, -⟩
  · exact hprefix rfl
  · exact hopens hnumbered

/-- A query without a letter. -/
def unlettered : Document :=
  ⟨⟨"a.graphql"⟩, [.operation ⟨⟨1, 1⟩, .query, some "_1", [], [],
    [.field ⟨1, 12⟩ none "a" [] [] []]⟩]⟩

/-- Where underscores separate words, its constant and its types open with a digit; and nothing is
left of a name of underscores. -/
theorem unlettered_opens_with_digit :
    let n := (Options.ofMembers [("transformUnderscore", .bool true),
      ("omitOperationSuffix", .bool true)]).naming
    Document.parse "query _1 { a }" ⟨"a.graphql"⟩ = .ok unlettered ∧
      unlettered.definitions.map Graphql.Definition.operationName? = [some "_1"] ∧
      IsName "_1" ∧ IsName "_" ∧ n.Fitting ∧
      n.documentConstant "_1" = "1Document" ∧ ¬ IsName "1Document" ∧
      n.variablesType "_1" .query = "1Variables" ∧ ¬ IsName "1Variables" ∧
      n.resultType "_" .query = "" ∧ ¬ IsName "" := by
  intro n
  have hparse : Document.parse "query _1 { a }" ⟨"a.graphql"⟩ = .ok unlettered := by cbv
  have hn : n.Fitting := by
    refine .of_standard rfl rfl rfl rfl ?_
    show ∀ p ∈ ["", "", ""], p = "" ∨ IsName p
    simp
  have hdigit {s : String} {c : Char} {cs : List Char} (hs : s.toList = c :: cs)
      (hc : isNameStart c = false) : ¬ IsName s := by
    rintro ⟨d, ds, hds, hd, -⟩
    obtain ⟨rfl, -⟩ := List.cons.inj (hs.symm.trans hds)
    rw [hc] at hd
    cases hd
  refine ⟨hparse, rfl, Graphql.isName_of rfl (by decide), Graphql.isName_of rfl (by decide), hn,
    by decide +kernel, hdigit rfl (by decide), by decide +kernel, hdigit rfl (by decide),
    by decide +kernel, ?_⟩
  rintro ⟨c, cs, hcs, -⟩
  cases hcs

end Composables.Naming
