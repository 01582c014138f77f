import Mathlib
import Composables.Naming.Basic

/-
  What generated names begin and end with. A name in pascal case does not begin with a small letter
  (`capital_convert`), and unless suffixes are left out a kept name ends with the word of its kind
  (`ends_base`). These tell constants from functions (`constant_eq_function`), whatever the names
  are that they come from.
-/

namespace Composables.Naming

open Graphql (OperationKind)

variable {n : Naming} {s t v w name other : String} {kind kind' : OperationKind}

/-! ## Affixes -/

theorem append_left_injective (w : String) : Function.Injective (· ++ w) := fun _ _ h =>
  (String.append_left_inj w).mp h

/-- What an affix is put to is as distinct as what comes of it. -/
theorem nodup_map_affix {α : Type} {affix : String → String} (haffix : Function.Injective affix)
    {f g : α → String} {xs : List α} (hg : ∀ x, g x = affix (f x)) :
    (xs.map g).Nodup ↔ (xs.map f).Nodup := by
  obtain rfl : g = affix ∘ f := funext hg
  rw [← List.map_map, List.nodup_map_iff haffix]

theorem nodup_map_of_eq {α : Type} {f g : α → String} {xs : List α} (hxs : (xs.map f).Nodup)
    (h : ∀ x y, g x = g y → f x = f y) : (xs.map g).Nodup :=
  List.pairwise_map.mpr ((List.pairwise_map.mp hxs).imp fun hne heq => hne (h _ _ heq))

/-! ## Endings -/

/-- A text ends with a word, whatever the case of the letters. -/
def Ends (s w : String) : Prop := lower w <:+ lower s

/-- No text ends with both words. -/
def Apart (v w : String) : Prop := ¬ lower v <:+ lower w ∧ ¬ lower w <:+ lower v

instance : Decidable (Apart v w) := inferInstanceAs (Decidable (_ ∧ _))

theorem lower_append (s t : String) : lower (s ++ t) = lower s ++ lower t := by
  rw [lower, String.toList_append, List.map_append]
  rfl

theorem ends_append (s w : String) : Ends (s ++ w) w := by
  rw [Ends, lower_append]
  exact List.suffix_append _ _

theorem Ends.append_left (h : Ends s w) (t : String) : Ends (t ++ s) w := by
  rw [Ends, lower_append]
  exact h.trans (List.suffix_append _ _)

theorem ne_of_ends (hs : Ends s v) (ht : Ends t w) (h : Apart v w) : s ≠ t := by
  rintro rfl
  rcases List.suffix_or_suffix_of_suffix hs ht with hvw | hwv
  · exact h.1 hvw
  · exact h.2 hwv

theorem suffix_cases (n : Naming) (name : String) (kind : OperationKind) :
    n.suffix name kind = "" ∨ n.suffix name kind = kind.word := by
  unfold suffix
  split
  · exact .inl rfl
  · exact .inr rfl

/-- A kept name of an operation ends with the word of its kind, be it the suffix or a part of the
name that counts as one. -/
theorem ends_base (hkeep : n.convention = .keep) (homit : n.omitOperationSuffix = false) :
    Ends (n.base name kind) kind.word := by
  have hconvert : n.convert name = name := by rw [convert, hkeep]
  unfold base suffix
  rw [homit, hconvert, Bool.false_or]
  split
  · rename_i hdeduped
    have hends : endsInKind name kind = true := (Bool.and_eq_true_iff.mp hdeduped).2
    rw [String.append_empty]
    exact List.isSuffixOf_iff_suffix.mp hends
  · exact ends_append name kind.word

/-! ## Capitals -/

/-- No small letter stands in front. -/
def Capital (cs : List Char) : Prop := ∀ c ∈ cs.head?, c.isLower = false

theorem capital_nil : Capital [] := by
  intro c hc
  cases hc

theorem capital_cons {c : Char} {cs : List Char} : Capital (c :: cs) ↔ c.isLower = false := by
  simp [Capital]

theorem Capital.append {cs ds : List Char} (hcs : Capital cs) (hds : Capital ds) :
    Capital (cs ++ ds) := by
  cases cs with
  | nil => exact hds
  | cons c cs => exact capital_cons.mpr (capital_cons.mp hcs)

theorem capital_flatten {pieces : List (List Char)} (h : ∀ piece ∈ pieces, Capital piece) :
    Capital pieces.flatten := by
  induction pieces with
  | nil => exact capital_nil
  | cons piece pieces ih =>
      obtain ⟨hpiece, hpieces⟩ := List.forall_mem_cons.mp h
      exact hpiece.append (ih hpieces)

theorem capital_join {sep : List Char} {pieces : List (List Char)} (hsep : Capital sep)
    (h : ∀ piece ∈ pieces, Capital piece) : Capital (Text.join sep pieces) := by
  induction pieces with
  | nil => exact capital_nil
  | cons piece pieces ih =>
      obtain ⟨hpiece, hpieces⟩ := List.forall_mem_cons.mp h
      cases pieces with
      | nil => exact hpiece
      | cons next pieces => exact (hpiece.append hsep).append (ih hpieces)

theorem capital_capitalize (word : List Char) : Capital (capitalize word) := by
  cases word with
  | nil => exact capital_nil
  | cons c cs => exact capital_cons.mpr (Char.isLower_toUpper_eq_false c)

theorem capital_capitalizeNext (word : List Char) : Capital (capitalizeNext word) := by
  unfold capitalizeNext
  split
  · exact capital_cons.mpr rfl
  · exact capital_capitalize word

theorem capital_pascalCase (cs : List Char) : Capital (pascalCase cs) := by
  unfold pascalCase
  split
  · exact capital_nil
  · rename_i first rest _
    refine (capital_capitalize first).append (capital_flatten ?_)
    rintro _ hpiece
    obtain ⟨word, _, rfl⟩ := List.mem_map.mp hpiece
    exact capital_capitalizeNext word

/-- A name in pascal case does not begin with a small letter, with or without its underscores. -/
theorem capital_convert (hpascal : n.convention = .pascalCase) :
    Capital (n.convert name).toList := by
  unfold convert
  rw [hpascal]
  dsimp only
  split
  · rw [pascal, String.toList_ofList]
    exact capital_pascalCase _
  · rw [String.toList_ofList]
    refine capital_join (capital_cons.mpr rfl) ?_
    intro piece hpiece
    obtain ⟨part, _, rfl⟩ := List.mem_map.mp hpiece
    exact capital_pascalCase part

/-- So no name in pascal case is that of a function. -/
theorem convert_append_ne_use (hpascal : n.convention = .pascalCase) (hw : Capital w.toList) :
    n.convert name ++ w ≠ "use" ++ s := by
  intro h
  have hcapital : Capital (n.convert name ++ w).toList := by
    rw [String.toList_append]
    exact (capital_convert hpascal).append hw
  rw [h, String.toList_append] at hcapital
  exact absurd (capital_cons.mp hcapital) (by decide)

/-! ## Lazy functions -/

/-- What stands in the name of a query's lazy function between `use` and `LazyQuery`. -/
def stem (n : Naming) (name : String) (kind : OperationKind) : String :=
  let deduped := !n.omitOperationSuffix && (n.suffix name kind).isEmpty
  n.convert (if deduped then withoutKind name kind else name)

theorem lazyFunction_eq : n.lazyFunction name kind = "use" ++ n.stem name kind ++ "LazyQuery" := rfl

/-! ## Constants and functions -/

/-- The affixes of constants are those that hold where none are given. -/
structure Plain (n : Naming) : Prop where
  documentPrefix : n.documentVariablePrefix = ""
  documentSuffix : n.documentVariableSuffix = "Document"
  fragmentPrefix : n.fragmentVariablePrefix = ""
  fragmentSuffix : n.fragmentVariableSuffix = "FragmentDoc"

namespace Plain

theorem documentConstant (h : n.Plain) :
    n.documentConstant name = n.convert name ++ "Document" := by
  rw [Naming.documentConstant, h.documentPrefix, h.documentSuffix, String.empty_append]

theorem fragmentConstant (h : n.Plain) :
    n.fragmentConstant name = n.convert name ++ "FragmentDoc" := by
  rw [Naming.fragmentConstant, h.fragmentPrefix, h.fragmentSuffix, String.empty_append]

end Plain

/-- A constant ends otherwise than a function. -/
theorem constant_apart (hw : w = "FragmentDoc" ∨ w = "Document") :
    Apart w "LazyQuery" ∧ ∀ kind : OperationKind, Apart w kind.word := by
  rcases hw with rfl | rfl
  · exact ⟨by decide +kernel, fun kind => by cases kind <;> decide +kernel⟩
  · exact ⟨by decide +kernel, fun kind => by cases kind <;> decide +kernel⟩

/-- A constant is called like a function only where names are kept and have no suffix. -/
theorem constant_eq_function (hw : w = "FragmentDoc" ∨ w = "Document") :
    n.convert name ++ w = n.function other kind ↔
      n.convention = .keep ∧ n.omitOperationSuffix ∧ name ++ w = "use" ++ other := by
  have hcapital : Capital w.toList := by
    rcases hw with rfl | rfl
    · exact capital_cons.mpr rfl
    · exact capital_cons.mpr rfl
  cases hconvention : n.convention with
  | pascalCase =>
      refine iff_of_false (convert_append_ne_use hconvention hcapital) ?_
      rintro ⟨hkeep, _⟩
      cases hkeep
  | keep =>
      have hconvert (s : String) : n.convert s = s := by rw [convert, hconvention]
      cases homit : n.omitOperationSuffix with
      | true => simp [function, base, suffix, homit, hconvert]
      | false =>
          -- a suffix that is dropped as a repetition still stands at the end of the name itself
          have hends : Ends (n.function other kind) kind.word :=
            (ends_base hconvention homit).append_left "use"
          refine iff_of_false ?_ (by simp)
          exact ne_of_ends (ends_append _ w) hends ((constant_apart hw).2 kind)

theorem constant_ne_lazyFunction (hw : w = "FragmentDoc" ∨ w = "Document") :
    n.convert name ++ w ≠ n.lazyFunction other kind := by
  rw [lazyFunction_eq]
  exact ne_of_ends (ends_append _ w) (ends_append _ _) (constant_apart hw).1

/-! ## Names that stay as they are -/

/-- Names are kept, and each operation has the word of its kind behind its name. -/
structure Verbatim (n : Naming) : Prop where
  keep : n.convention = .keep
  full : n.omitOperationSuffix = false
  repeated : n.dedupeOperationSuffix = false

namespace Verbatim

theorem convert (h : n.Verbatim) : n.convert name = name := by
  rw [Naming.convert, h.keep]

theorem suffix (h : n.Verbatim) : n.suffix name kind = kind.word := by
  rw [Naming.suffix, h.full, h.repeated]
  rfl

theorem base (h : n.Verbatim) : n.base name kind = name ++ kind.word := by
  rw [Naming.base, h.convert, h.suffix]

theorem stem (h : n.Verbatim) : n.stem name kind = name := by
  have hword : kind.word.isEmpty = false := by cases kind <;> decide +kernel
  rw [Naming.stem, h.suffix, hword, Bool.and_false, if_neg Bool.false_ne_true, h.convert]

/-- Two operations have one name with its suffix only if they have one name. -/
theorem base_inj (h : n.Verbatim) (heq : n.base name kind = n.base other kind') : name = other := by
  rw [h.base, h.base] at heq
  by_cases hkind : kind = kind'
  · rw [hkind] at heq
    exact (String.append_left_inj _).mp heq
  · have hapart : Apart kind.word kind'.word := by
      revert hkind
      cases kind <;> cases kind' <;> decide +kernel
    exact absurd heq (ne_of_ends (ends_append name _) (ends_append other _) hapart)

/-- A name with its suffix is that of a lazy function only for a query with `Lazy` at the end of its
name. -/
theorem base_eq_lazy_iff (h : n.Verbatim) :
    n.base name kind = n.stem other kind' ++ "LazyQuery" ↔
      kind = .query ∧ name = other ++ "Lazy" := by
  rw [h.base, h.stem]
  by_cases hkind : kind = .query
  · have hsuffix : other ++ "LazyQuery" = other ++ "Lazy" ++ "Query" := by
      rw [String.append_assoc]
      rfl
    rw [hkind, hsuffix, and_iff_right rfl]
    exact String.append_left_inj "Query"
  · have hapart : Apart kind.word "LazyQuery" := by
      revert hkind
      cases kind <;> decide +kernel
    exact iff_of_false (ne_of_ends (ends_append name _) (ends_append other _) hapart)
      fun hboth => hkind hboth.1

end Verbatim

end Composables.Naming
