import Composables.Proofs.Naming.Lossless

/-
  Words of kinds at the ends of names. A name that ends in the word of its kind is that word, in
  letters of whatever case, behind something else (`exists_of_endsInKind`), so that a cut by the
  bytes of the word is a cut between signs (`lazyByBytes?_eq`). Counting letters tells lazy functions
  from the others, since conversion loses none.
-/

namespace Composables.Naming

open Graphql (IsName OperationKind)

variable {n : Naming} {name s t : String} {cs w : List Char} {kind : OperationKind}

/-! ## Bytes -/

theorem utf8Size_of_isAlpha {c : Char} (h : c.isAlpha) : c.utf8Size = 1 := by
  simp only [Char.isAlpha, Char.isUpper, Char.isLower, Bool.or_eq_true, Bool.and_eq_true,
    decide_eq_true_eq, ge_iff_le, UInt32.le_iff_toNat_le] at h
  rw [Char.utf8Size_eq_one_iff, UInt32.le_iff_toNat_le]
  rcases h with ⟨-, hhigh⟩ | ⟨-, hhigh⟩
  · exact hhigh.trans (by decide)
  · exact hhigh.trans (by decide)

/-- A letter of another case takes as many bytes. -/
theorem utf8Size_toLower (c : Char) : c.toLower.utf8Size = c.utf8Size := by
  by_cases hupper : c.isUpper
  · have halpha := isAlpha_of_isUpper hupper
    rw [utf8Size_of_isAlpha halpha,
      utf8Size_of_isAlpha (by rw [Char.isAlpha_toLower_eq_isAlpha, halpha])]
  · rw [Char.toLower_eq_of_not_isUpper hupper]

theorem utf8ByteSize_eq (h : lower s = lower t) : s.utf8ByteSize = t.utf8ByteSize := by
  have hlen : ∀ cs : List Char, String.utf8Len (cs.map Char.toLower) = String.utf8Len cs := by
    intro cs
    induction cs with
    | nil => rfl
    | cons c cs ih =>
        rw [List.map_cons, String.utf8Len_cons, String.utf8Len_cons, ih, utf8Size_toLower]
  rw [← String.utf8Len_toList, ← hlen, ← lower, h, lower, hlen, String.utf8Len_toList]

/-- What stands in front of a byte of a text; nothing if the text is shorter, or if the byte is not
the first one of a sign. -/
def front? (s : String) (size : Nat) : Option String :=
  if h : String.Pos.Raw.IsValid s ⟨size⟩ then some (s.sliceTo ⟨⟨size⟩, h⟩).copy else none

theorem front?_append (s t : String) : front? (s ++ t) s.utf8ByteSize = some s := by
  have hvalid : String.Pos.Raw.IsValid (s ++ t) ⟨s.utf8ByteSize⟩ :=
    String.Pos.Raw.isValid_iff_exists_append.mpr ⟨s, t, rfl, rfl⟩
  rw [front?, dif_pos hvalid]
  exact congrArg some (String.Pos.Splits.copy_sliceTo_eq ⟨rfl, rfl⟩)

/-- A text without so many bytes at its end as a word has; nothing if the text is shorter, or if
this would cut a sign in two. -/
def cutBytes? (s word : String) : Option String :=
  if word.utf8ByteSize ≤ s.utf8ByteSize then front? s (s.utf8ByteSize - word.utf8ByteSize) else none

theorem cutBytes?_append (h : lower t = lower s) (front : String) :
    cutBytes? (front ++ t) s = some front := by
  have hsize : (front ++ t).utf8ByteSize = front.utf8ByteSize + s.utf8ByteSize := by
    rw [String.utf8ByteSize_append, utf8ByteSize_eq h]
  rw [cutBytes?, hsize, if_pos (Nat.le_add_left _ _), Nat.add_sub_cancel, front?_append]

/-! ## Lazy functions -/

/-- A text without the signs at its end that may stand between words. -/
def trimmed (s : String) : String :=
  String.ofList (s.toList.reverse.dropWhile fun c => c == '_' || c == '-').reverse

/-- Whether the word of its kind at the end of a name is taken for the suffix. -/
def deduped (n : Naming) (name : String) (kind : OperationKind) : Bool :=
  !n.omitOperationSuffix && (n.suffix name kind).isEmpty

theorem stem_eq (n : Naming) (name : String) (kind : OperationKind) :
    n.stem name kind =
      n.convert (if n.deduped name kind then withoutKind name kind else name) := rfl

/-- The name of a query's lazy function, if the word of its kind is cut off by its bytes. -/
def lazyByBytes? (n : Naming) (name : String) (kind : OperationKind) : Option String := do
  let front ← if n.deduped name kind then (cutBytes? name kind.word).map trimmed else some name
  let stem := if front.isEmpty then name else front
  return "use" ++ n.convert stem ++ "LazyQuery"

theorem endsInKind_of_deduped (h : n.deduped name kind) : endsInKind name kind := by
  obtain ⟨homit, hempty⟩ := Bool.and_eq_true_iff.mp h
  have homit : n.omitOperationSuffix = false := by simpa using homit
  rw [suffix, homit, Bool.false_or] at hempty
  split at hempty
  · rename_i hends
    exact (Bool.and_eq_true_iff.mp hends).2
  · exact absurd hempty (by cases kind <;> decide +kernel)

/-- A name that ends in the word of its kind is put together from that word and what is left. -/
theorem exists_of_endsInKind (h : endsInKind name kind) :
    ∃ front word : String, name = front ++ word ∧ lower word = lower kind.word := by
  obtain ⟨front, hfront⟩ := List.isSuffixOf_iff_suffix.mp h
  obtain ⟨front', word, hname, -, hword⟩ := List.map_eq_append_iff.mp hfront.symm
  refine ⟨String.ofList front', String.ofList word, ?_, ?_⟩
  · rw [← String.toList_inj, String.toList_append, String.toList_ofList, String.toList_ofList,
      hname]
  · rw [lower, String.toList_ofList, hword]

/-- Signs that may stand between words, and what stands in front of them. -/
theorem exists_trimmed (s : String) :
    ∃ between : List Char, s.toList = (trimmed s).toList ++ between ∧
      ∀ c ∈ between, c.isAlphanum = false := by
  refine ⟨(s.toList.reverse.takeWhile fun c => c == '_' || c == '-').reverse, ?_, fun c hc => ?_⟩
  · rw [trimmed, String.toList_ofList, ← List.reverse_append, List.takeWhile_append_dropWhile,
      List.reverse_reverse]
  · have hsign := List.mem_takeWhile_imp (List.mem_reverse.mp hc)
    rw [Bool.or_eq_true, beq_iff_eq, beq_iff_eq] at hsign
    rcases hsign with rfl | rfl <;> rfl

/-- What a lazy function is named after where the word of its kind is taken for the suffix. -/
theorem withoutKind_append {word : String} (hword : lower word = lower kind.word)
    (front : String) :
    withoutKind (front ++ word) kind =
      if (trimmed front).isEmpty then front ++ word else trimmed front := by
  have hlength : word.toList.length = kind.word.length := by
    have := congrArg List.length hword
    rwa [lower, lower, List.length_map, List.length_map, String.length_toList] at this
  have hdrop : (front ++ word).toList.reverse.drop kind.word.length = front.toList.reverse := by
    rw [String.toList_append, List.reverse_append, ← hlength, ← List.length_reverse,
      List.drop_left]
  unfold withoutKind trimmed
  dsimp only
  rw [hdrop]
  simp

/-- Cutting off the word of its kind by its bytes never leaves a name, nor does it cut a sign in
two, and it gives the name of the lazy function. -/
theorem lazyByBytes?_eq (n : Naming) (name : String) (kind : OperationKind) :
    n.lazyByBytes? name kind = some (n.lazyFunction name kind) := by
  rw [lazyFunction_eq, stem_eq, lazyByBytes?]
  cases hdeduped : n.deduped name kind with
  | false => simp
  | true =>
      obtain ⟨front, word, rfl, hword⟩ := exists_of_endsInKind (endsInKind_of_deduped hdeduped)
      rw [if_pos rfl, if_pos rfl, cutBytes?_append hword, withoutKind_append hword]
      rfl

/-! ## Lazy functions and others -/

theorem letters_convert (n : Naming) (name : String) :
    letters (n.convert name).toList = letters name.toList :=
  reading_letters.convert n name

/-- A name with its suffix has the letters of the stem of its lazy function, and besides at most
those of the word of its kind. -/
theorem letters_base (n : Naming) (name : String) (kind : OperationKind) :
    ∃ more, (more = [] ∨ more = letters kind.word.toList) ∧
      letters (n.base name kind).toList = letters (n.stem name kind).toList ++ more := by
  rw [base, String.toList_append, letters_append, letters_convert, stem_eq, letters_convert]
  cases hdeduped : n.deduped name kind with
  | false =>
      refine ⟨letters (n.suffix name kind).toList, ?_, rfl⟩
      rcases n.suffix_cases name kind with hsuffix | hsuffix
      · exact .inl (by rw [hsuffix]; rfl)
      · exact .inr (by rw [hsuffix])
  | true =>
      have hsuffix : n.suffix name kind = "" :=
        String.isEmpty_iff.mp (Bool.and_eq_true_iff.mp hdeduped).2
      obtain ⟨front, word, rfl, hword⟩ := exists_of_endsInKind (endsInKind_of_deduped hdeduped)
      rw [hsuffix, if_pos rfl, withoutKind_append hword]
      have hnone : letters "".toList = [] := rfl
      split
      · exact ⟨[], .inl rfl, by rw [hnone]⟩
      · refine ⟨letters kind.word.toList, .inr rfl, ?_⟩
        obtain ⟨between, hfront, hbetween⟩ := exists_trimmed front
        rw [hnone, List.append_nil, String.toList_append, letters_append, hfront, letters_append,
          reading_letters.of_lower_eq hword, reading_letters.of_cut (.gap hbetween),
          List.flatMap_nil, List.append_nil]

theorem lazyFunction_ne_function (n : Naming) (name : String) (kind : OperationKind) :
    n.lazyFunction name kind ≠ n.function name kind := by
  intro heq
  obtain ⟨more, hmore, hbase⟩ := n.letters_base name kind
  have hletters := congrArg (letters ∘ String.toList) heq
  simp only [lazyFunction_eq, function, Function.comp_apply, String.toList_append, letters_append,
    hbase, List.append_assoc, List.append_cancel_left_eq] at hletters
  rcases hmore with rfl | rfl
  · exact absurd hletters (by decide)
  · revert hletters
    cases kind <;> decide

/-! ## Words of kinds -/

/-- How often a text is repeated at the end of another one. -/
def repeats (w cs : List Char) : ℕ :=
  Nat.findGreatest (fun k => (List.replicate k w).flatten <:+ cs) cs.length

/-- How often the word of a kind stands at the end of a name, in letters of whatever case. -/
def kindsAtEnd (name : String) (kind : OperationKind) : ℕ := repeats (lower kind.word) (lower name)

theorem repeats_pos (hw : w ≠ []) (h : w <:+ cs) : 1 ≤ repeats w cs := by
  have hlength := (List.length_pos_iff.mpr hw).trans_le h.length_le
  refine Nat.le_findGreatest hlength ?_
  simpa using h

theorem not_suffix_of_repeats {k : ℕ} (h : ¬ w <:+ cs) (hk : 0 < k) :
    ¬ (List.replicate k w).flatten <:+ cs := by
  obtain ⟨k, rfl⟩ := Nat.exists_eq_add_one.mpr hk
  intro hsuffix
  rw [List.replicate_succ', List.flatten_append, List.flatten_singleton] at hsuffix
  exact h ((List.suffix_append _ w).trans hsuffix)

theorem repeats_eq_zero (h : ¬ w <:+ cs) : repeats w cs = 0 :=
  Nat.findGreatest_eq_zero_iff.mpr fun _ hk _ => not_suffix_of_repeats h hk

/-- Behind a text that does not end with it, a word stands once. -/
theorem repeats_append (hw : w ≠ []) (h : ¬ w <:+ cs) : repeats w (cs ++ w) = 1 := by
  refine Nat.findGreatest_eq_iff.mpr ⟨?_, fun _ => by simp, fun k hk _ hsuffix => ?_⟩
  · rw [List.length_append]
    exact (List.length_pos_iff.mpr hw).trans_le (Nat.le_add_left _ _)
  · obtain ⟨k, rfl⟩ := Nat.exists_eq_add_one.mpr (Nat.zero_lt_of_lt hk)
    rw [List.replicate_succ', List.flatten_append, List.flatten_singleton,
      List.suffix_append_inj_of_length_eq rfl] at hsuffix
    exact not_suffix_of_repeats h (Nat.lt_of_succ_lt_succ hk) hsuffix.1

/-- Behind a name without the word of its kind at its end this word is put, and a name with it stays
as it is. -/
theorem kindsAtEnd_base (hdedupe : n.dedupeOperationSuffix = true)
    (homit : n.omitOperationSuffix = false) (hkept : n.Kept) (hname : IsName name) :
    kindsAtEnd (n.base name kind) kind = max 1 (kindsAtEnd name kind) := by
  have hword : lower kind.word ≠ [] := by cases kind <;> decide
  have hconvert : lower (n.convert name) = lower name :=
    lower_convert hkept (isNameChar_of_isName hname)
  unfold kindsAtEnd
  rw [base, suffix, homit, hdedupe, Bool.false_or, Bool.true_and, lower_append, hconvert]
  by_cases hends : endsInKind name kind
  · rw [if_pos hends, Nat.max_eq_right (repeats_pos hword (List.isSuffixOf_iff_suffix.mp hends))]
    exact congrArg _ (List.append_nil _)
  · have hsuffix : ¬ lower kind.word <:+ lower name := fun h =>
      hends (List.isSuffixOf_iff_suffix.mpr h)
    rw [if_neg hends, repeats_append hword hsuffix, repeats_eq_zero hsuffix]
    rfl

/-- The name of a lazy function is found without a bad cut for any name and options, ends in
`LazyQuery`, and is not that of the operation's other function. Where names stay but for the case of
letters and a suffix is not repeated, an operation's name with its suffix ends in the word of its
kind as often as the name itself, and once if that does not end in it. -/
theorem suffix_once (n : Naming) (name : String) (kind : OperationKind) :
    n.lazyByBytes? name kind = some (n.lazyFunction name kind) ∧
      "LazyQuery".toList <:+ (n.lazyFunction name kind).toList ∧
      n.lazyFunction name kind ≠ n.function name kind ∧
      (n.dedupeOperationSuffix = true → n.omitOperationSuffix = false →
        (n.convention = .keep ∨ n.convention = .pascalCase ∧ n.transformUnderscore = false) →
        IsName name →
          kindsAtEnd (n.base name kind) kind = max 1 (kindsAtEnd name kind)) := by
  refine ⟨n.lazyByBytes?_eq name kind, ?_, n.lazyFunction_ne_function name kind,
    fun hdedupe homit hkept hname => kindsAtEnd_base hdedupe homit hkept hname⟩
  rw [lazyFunction_eq, String.toList_append]
  exact List.suffix_append _ _

/-- A kind that is said twice stays so, in whatever case. -/
theorem suffix_once_feed :
    let n := (Options.ofMembers [("dedupeOperationSuffix", .bool true)]).naming
    IsName "feed_QueryQUERY" ∧ kindsAtEnd "feed_QueryQUERY" .query = 2 ∧
      kindsAtEnd (n.base "feed_QueryQUERY" .query) .query = 2 := by
  intro n
  have hname : IsName "feed_QueryQUERY" := Graphql.isName_of rfl (by decide)
  have htwice : kindsAtEnd "feed_QueryQUERY" .query = 2 := by decide +kernel
  obtain ⟨-, -, -, hkinds⟩ := suffix_once n "feed_QueryQUERY" .query
  refine ⟨hname, htwice, ?_⟩
  rw [hkinds rfl rfl (.inr ⟨rfl, rfl⟩) hname, htwice]
  rfl

end Composables.Naming
