import Composables.Options
import Composables.Proofs.Graphql.Formed
import Composables.Proofs.Naming.Affixes
import Composables.Proofs.Text.Split

/-
  What conversion keeps of a name. A text is its words and what lies between them (`cut_words`), and
  words are only written with other capitals, so that no letter and no digit is lost and no two
  numbers run together (`Reading.pascalCase`). A name whose underscores stay is the same but for the
  case of its letters (`lower_convert`).
-/

namespace Composables.Naming

open Graphql (IsName)
open Graphql.Token (isNameChar isNameStart)

variable {α : Type} {n : Naming} {name other : String} {cs ds word : List Char}
  {ws : List (List Char)}

/-! ## Letters and digits -/

theorem isAlpha_of_isUpper {c : Char} (h : c.isUpper) : c.isAlpha := by
  rw [Char.isAlpha, h, Bool.true_or]

theorem isDigit_of_isAlpha {c : Char} (h : c.isAlpha) : c.isDigit = false := by
  have hcode : c.val.toNat = c.toNat := rfl
  simp only [Char.isAlpha, Char.isUpper, Char.isLower, Bool.or_eq_true, Bool.and_eq_true,
    decide_eq_true_eq, ge_iff_le, UInt32.le_iff_toNat_le, hcode] at h
  rw [Bool.eq_false_iff, ne_eq, Char.isDigit_iff_toNat]
  rintro ⟨-, hdigit⟩
  rcases h with ⟨hlow, -⟩ | ⟨hlow, -⟩
  · exact absurd (hlow.trans hdigit) (by decide)
  · exact absurd (hlow.trans hdigit) (by decide)

theorem isDigit_of_isAlphanum_eq_false {c : Char} (h : c.isAlphanum = false) :
    c.isDigit = false :=
  (Bool.or_eq_false_iff.mp h).2

theorem isDigit_toLower (c : Char) : c.toLower.isDigit = c.isDigit := by
  by_cases hupper : c.isUpper
  · have halpha := isAlpha_of_isUpper hupper
    have hlower : c.toLower.isAlpha := by rw [Char.isAlpha_toLower_eq_isAlpha, halpha]
    rw [isDigit_of_isAlpha hlower, isDigit_of_isAlpha halpha]
  · rw [Char.toLower_eq_of_not_isUpper hupper]

theorem isAlphanum_toLower (c : Char) : c.toLower.isAlphanum = c.isAlphanum := by
  rw [Char.isAlphanum, Char.isAlpha_toLower_eq_isAlpha, isDigit_toLower, Char.isAlphanum]

theorem isAlphanum_toUpper (c : Char) : c.toUpper.isAlphanum = c.isAlphanum := by
  rw [← isAlphanum_toLower, Char.toLower_toUpper_eq_toLower, isAlphanum_toLower]

theorem isDigit_toUpper (c : Char) : c.toUpper.isDigit = c.isDigit := by
  rw [← isDigit_toLower, Char.toLower_toUpper_eq_toLower, isDigit_toLower]

theorem toLower_of_isDigit {c : Char} (h : c.isDigit) : c.toLower = c := by
  refine Char.toLower_eq_of_not_isUpper fun hupper => ?_
  rw [isDigit_of_isAlpha (isAlpha_of_isUpper hupper)] at h
  cases h

/-! ## Words -/

/-- A text is cut into words: nothing of a word lies between them, and no digit stands right behind
one. -/
inductive Cut : List Char → List (List Char) → Prop where
  | gap {gap : List Char} (h : ∀ c ∈ gap, c.isAlphanum = false) : Cut gap []
  | word {gap word rest : List Char} {words : List (List Char)}
      (hgap : ∀ c ∈ gap, c.isAlphanum = false) (hne : word ≠ []) (hword : ∀ c ∈ word, c.isAlphanum)
      (hrest : ∀ c ∈ rest.head?, c.isDigit = false) (h : Cut rest words) :
      Cut (gap ++ (word ++ rest)) (word :: words)

namespace Cut

/-- A text that opens a word opens with its first word. -/
theorem exists_word {d : Char} {rest : List Char} (hd : d.isAlphanum) (h : Cut (d :: rest) ws) :
    ∃ word behind words, d :: rest = word ++ behind ∧ ws = word :: words ∧
      (∀ c ∈ word, c.isAlphanum) ∧ (∀ c ∈ behind.head?, c.isDigit = false) ∧
      Cut behind words := by
  generalize htext : d :: rest = text at h
  cases h with
  | gap h => exact absurd hd (Bool.eq_false_iff.mp (h d (htext ▸ List.mem_cons_self)))
  | @word gap word behind words hgap _ hword hrest h =>
      cases gap with
      | nil => exact ⟨word, behind, words, rfl, rfl, hword, hrest, h⟩
      | cons c gap =>
          obtain rfl := (List.cons.inj htext).1
          exact absurd hd (Bool.eq_false_iff.mp (hgap d List.mem_cons_self))

/-- What belongs to no word may stand in front. -/
theorem cons {c : Char} (hc : c.isAlphanum = false) (h : Cut cs ws) : Cut (c :: cs) ws := by
  cases h with
  | gap h => exact .gap (List.forall_mem_cons.mpr ⟨hc, h⟩)
  | @word gap _ _ _ hgap hne hword hrest h =>
      exact @Cut.word (c :: gap) _ _ _ (List.forall_mem_cons.mpr ⟨hc, hgap⟩) hne hword hrest h

end Cut

theorem cut_words (cs : List Char) : Cut cs (words cs) := by
  fun_induction words cs with
  | case1 => exact .gap nofun
  | case2 c hc =>
      exact @Cut.word [] [c] [] [] nofun (List.cons_ne_nil _ _) (by simpa using hc) nofun
        (.gap nofun)
  | case3 c hc d rest hd ih =>
      -- the first word goes on to the left
      obtain ⟨hd, -⟩ := Bool.and_eq_true_iff.mp hd
      obtain ⟨word, behind, words, htext, hwords, hword, hbehind, hcut⟩ := ih.exists_word hd
      rw [hwords, htext, Text.attach]
      exact @Cut.word [] (c :: word) _ _ nofun (List.cons_ne_nil _ _)
        (List.forall_mem_cons.mpr ⟨hc, hword⟩) hbehind hcut
  | case4 c hc d rest hd ih =>
      have hdigit : d.isDigit = false := by
        rw [Bool.and_eq_true_iff, not_and] at hd
        by_cases halphanum : d.isAlphanum
        · have hstarts : startsWord c d rest.head? := by simpa using hd halphanum
          exact isDigit_of_isAlpha (isAlpha_of_isUpper (Bool.and_eq_true_iff.mp hstarts).1)
        · exact isDigit_of_isAlphanum_eq_false (Bool.not_eq_true _ ▸ halphanum)
      exact @Cut.word [] [c] _ _ nofun (List.cons_ne_nil _ _) (by simpa using hc)
        (by simpa using hdigit) ih
  | case5 c cs hc ih => exact ih.cons (Bool.not_eq_true _ ▸ hc)

/-! ## Readings -/

/-- What is read of a text where words matter, but neither their case nor what lies between them. A
digit may belong to what stands before it. -/
structure Reading (f : List Char → List α) : Prop where
  nil : f [] = []
  cons : ∀ c cs, c.isAlphanum = false → f (c :: cs) = f cs
  append : ∀ cs ds, (∀ c ∈ ds.head?, c.isDigit = false) → f (cs ++ ds) = f cs ++ f ds
  lower : ∀ cs, f (cs.map Char.toLower) = f cs

theorem lower_capitalize (word : List Char) :
    (capitalize word).map Char.toLower = word.map Char.toLower := by
  cases word with
  | nil => rfl
  | cons c word =>
      simp only [capitalize, List.map_cons, List.map_map, Char.toLower_toUpper_eq_toLower]
      congr 2
      funext d
      exact Char.toLower_toLower_eq_toLower d

/-- No digit opens a word behind another one. -/
theorem head?_flatMap_capitalizeNext (ws : List (List Char)) :
    ∀ c ∈ (ws.flatMap capitalizeNext).head?, c.isDigit = false := by
  induction ws with
  | nil => exact nofun
  | cons word ws ih =>
      rw [List.flatMap_cons, capitalizeNext]
      split
      · rintro _ ⟨⟩
        rfl
      · rename_i hdigit
        cases word with
        | nil => exact ih
        | cons c word =>
            rintro _ ⟨⟩
            rw [isDigit_toUpper]
            simpa using hdigit

namespace Reading

variable {f : List Char → List α}

theorem gap_append (hf : Reading f) (h : ∀ c ∈ cs, c.isAlphanum = false) (ds : List Char) :
    f (cs ++ ds) = f ds := by
  induction cs with
  | nil => rfl
  | cons c cs ih =>
      rw [List.forall_mem_cons] at h
      rw [List.cons_append, hf.cons c _ h.1, ih h.2]

theorem of_lower_eq (hf : Reading f) (h : cs.map Char.toLower = ds.map Char.toLower) :
    f cs = f ds := by
  rw [← hf.lower cs, h, hf.lower]

/-- A text is read word by word. -/
theorem of_cut (hf : Reading f) (h : Cut cs ws) : f cs = ws.flatMap f := by
  induction h with
  | @gap gap h => rw [← List.append_nil gap, hf.gap_append h, hf.nil, List.flatMap_nil]
  | word hgap _ _ hrest _ ih =>
      rw [hf.gap_append hgap, hf.append _ _ hrest, ih, List.flatMap_cons]

theorem capitalize (hf : Reading f) (word : List Char) : f (capitalize word) = f word :=
  hf.of_lower_eq (lower_capitalize word)

theorem capitalizeNext (hf : Reading f) (word : List Char) : f (capitalizeNext word) = f word := by
  unfold Naming.capitalizeNext
  split
  · rw [hf.cons _ _ rfl, hf.capitalize]
  · exact hf.capitalize word

theorem flatMap_capitalizeNext (hf : Reading f) (ws : List (List Char)) :
    f (ws.flatMap Naming.capitalizeNext) = ws.flatMap f := by
  induction ws with
  | nil => exact hf.nil
  | cons word ws ih =>
      rw [List.flatMap_cons, hf.append _ _ (head?_flatMap_capitalizeNext ws), hf.capitalizeNext, ih,
        List.flatMap_cons]

/-- Nothing of a text is lost in pascal case. -/
theorem pascalCase (hf : Reading f) (cs : List Char) : f (pascalCase cs) = f cs := by
  rw [hf.of_cut (cut_words cs), Naming.pascalCase]
  cases words cs with
  | nil => exact hf.nil
  | cons word ws =>
      rw [hf.append _ _ (head?_flatMap_capitalizeNext ws), hf.capitalize,
        hf.flatMap_capitalizeNext, List.flatMap_cons]

end Reading

/-- Pieces with an underscore between neighbours are read one by one. -/
theorem Reading.join {f : List Char → List α} (hf : Reading f) (pieces : List (List Char)) :
    f (Text.join ['_'] pieces) = pieces.flatMap f := by
  induction pieces with
  | nil => exact hf.nil
  | cons piece pieces ih =>
      cases pieces with
      | nil => rw [List.flatMap_singleton]; rfl
      | cons next pieces =>
          rw [Text.join_cons_of_ne_nil (List.cons_ne_nil _ _), List.append_assoc,
            List.singleton_append, hf.append _ _ (by rintro _ ⟨⟩; rfl), hf.cons _ _ rfl, ih]
          rfl

/-- Nor is anything lost by conversion, whatever the convention. -/
theorem Reading.convert {f : List Char → List α} (hf : Reading f) (n : Naming) (name : String) :
    f (n.convert name).toList = f name.toList := by
  unfold Naming.convert
  cases n.convention with
  | keep => rfl
  | pascalCase =>
      dsimp only
      split
      · rw [pascal, String.toList_ofList, hf.pascalCase]
      · rw [String.toList_ofList, hf.join, List.flatMap_map]
        simp only [hf.pascalCase]
        rw [← hf.join, Text.join_split]

/-- The letters and digits of a text, whatever the case of the letters. -/
def letters (cs : List Char) : List Char := (cs.filter Char.isAlphanum).map Char.toLower

/-- The numbers in a text: its longest pieces without a sign that is no digit. -/
def numbers (cs : List Char) : List (List Char) :=
  (cs.splitOnP fun c => !c.isDigit).filter fun piece => !piece.isEmpty

theorem letters_append (cs ds : List Char) : letters (cs ++ ds) = letters cs ++ letters ds := by
  rw [letters, List.filter_append, List.map_append, letters, letters]

theorem reading_letters : Reading letters where
  nil := rfl
  cons c cs hc := by rw [letters, List.filter_cons_of_neg (Bool.eq_false_iff.mp hc), letters]
  append cs ds _ := letters_append cs ds
  lower cs := by
    rw [letters, List.filter_map, List.map_map, letters]
    congr 1
    · funext c
      exact Char.toLower_toLower_eq_toLower c
    · congr 1
      funext c
      exact isAlphanum_toLower c

theorem splitOnP_lower (cs : List Char) :
    (cs.map Char.toLower).splitOnP (fun c => !c.isDigit) = cs.splitOnP fun c => !c.isDigit := by
  induction cs with
  | nil => rfl
  | cons c cs ih =>
      rw [List.map_cons, List.splitOnP_cons_eq_if_modifyHead, List.splitOnP_cons_eq_if_modifyHead,
        ih, isDigit_toLower]
      split
      · rfl
      · rename_i hdigit
        rw [toLower_of_isDigit (by simpa using hdigit)]

theorem numbers_cons {c : Char} (hc : c.isDigit = false) (cs : List Char) :
    numbers (c :: cs) = numbers cs := by
  rw [numbers, List.splitOnP_cons_eq_if_modifyHead, if_pos (by rw [hc]; rfl),
    List.filter_cons_of_neg (by simp), numbers]

theorem reading_numbers : Reading numbers where
  nil := rfl
  cons c cs hc := numbers_cons (isDigit_of_isAlphanum_eq_false hc) cs
  append cs ds hds := by
    cases ds with
    | nil => rw [List.append_nil]; exact (List.append_nil _).symm
    | cons d ds =>
        have hd : d.isDigit = false := hds d rfl
        rw [numbers_cons hd, numbers, List.splitOnP_append_cons _ _ (by rw [hd]; rfl),
          List.filter_append, numbers, numbers]
  lower cs := by rw [numbers, splitOnP_lower, numbers]

/-! ## Signs -/

/-- The first letter or digit of a text opens its first word. -/
theorem Cut.find?_isAlphanum (h : Cut cs ws) :
    cs.find? Char.isAlphanum = ws.head?.bind List.head? := by
  have hnone {gap : List Char} (hgap : ∀ c ∈ gap, c.isAlphanum = false) :
      gap.find? Char.isAlphanum = none :=
    List.find?_eq_none.mpr fun c hc => Bool.eq_false_iff.mp (hgap c hc)
  cases h with
  | gap h => exact hnone h
  | word hgap hne hword _ _ =>
      obtain ⟨c, word, rfl⟩ := List.exists_cons_of_ne_nil hne
      rw [List.find?_append, hnone hgap, Option.none_or, List.cons_append,
        List.find?_cons_of_pos (hword c List.mem_cons_self)]
      rfl

theorem Cut.ne_nil (h : Cut cs ws) : ∀ word ∈ ws, word ≠ [] := by
  induction h with
  | gap => exact nofun
  | word _ hne _ _ _ ih => exact List.forall_mem_cons.mpr ⟨hne, ih⟩

/-- Pascal case opens with the first letter or digit. -/
theorem head?_pascalCase (cs : List Char) :
    (pascalCase cs).head? = (cs.find? Char.isAlphanum).map Char.toUpper := by
  have hne := (cut_words cs).ne_nil
  rw [(cut_words cs).find?_isAlphanum, pascalCase]
  cases hcs : words cs with
  | nil => rfl
  | cons word ws =>
      obtain ⟨c, word, rfl⟩ := List.exists_cons_of_ne_nil (hne word (hcs ▸ List.mem_cons_self))
      rfl

theorem Cut.isAlphanum (h : Cut cs ws) : ∀ word ∈ ws, ∀ c ∈ word, c.isAlphanum := by
  induction h with
  | gap => exact nofun
  | word _ _ hword _ _ ih => exact List.forall_mem_cons.mpr ⟨hword, ih⟩

theorem mem_capitalize {c : Char} (hword : ∀ c ∈ word, c.isAlphanum) (h : c ∈ capitalize word) :
    c.isAlphanum := by
  cases word with
  | nil => cases h
  | cons d word =>
      rw [List.forall_mem_cons] at hword
      rcases List.mem_cons.mp h with rfl | h
      · rw [isAlphanum_toUpper, hword.1]
      · obtain ⟨e, he, rfl⟩ := List.mem_map.mp h
        rw [isAlphanum_toLower, hword.2 e he]

/-- Besides letters and digits there are only underscores, each in front of a word behind another
one that opens with a digit. -/
theorem mem_pascalCase {c : Char} (h : c ∈ pascalCase cs) :
    c.isAlphanum ∨ c = '_' ∧ ∃ word ∈ (words cs).tail, word.head?.any Char.isDigit := by
  have hwords := (cut_words cs).isAlphanum
  unfold pascalCase at h
  cases hcs : words cs with
  | nil =>
      rw [hcs] at h
      cases h
  | cons first rest =>
      rw [hcs] at h hwords
      rw [List.forall_mem_cons] at hwords
      rcases List.mem_append.mp h with h | h
      · exact .inl (mem_capitalize hwords.1 h)
      · obtain ⟨word, hword, h⟩ := List.mem_flatMap.mp h
        unfold capitalizeNext at h
        split at h
        · rename_i hdigit
          rcases List.mem_cons.mp h with rfl | h
          · exact .inr ⟨rfl, word, hword, hdigit⟩
          · exact .inl (mem_capitalize (hwords.2 word hword) h)
        · exact .inl (mem_capitalize (hwords.2 word hword) h)

/-! ## Names that keep their underscores -/

/-- If a text has no gaps, a word in it opens with a digit only if the text does. -/
theorem Cut.head_not_digit (h : Cut cs ws) (hall : ∀ c ∈ cs, c.isAlphanum)
    (hhead : ∀ c ∈ cs.head?, c.isDigit = false) :
    ∀ word ∈ ws, word.head?.any Char.isDigit = false := by
  induction h with
  | gap => exact nofun
  | @word gap word rest words hgap hne _ hrest _ ih =>
      cases gap with
      | cons c gap =>
          have hc := hgap c List.mem_cons_self
          rw [hall c List.mem_cons_self] at hc
          cases hc
      | nil =>
          obtain ⟨c, word, rfl⟩ := List.exists_cons_of_ne_nil hne
          refine List.forall_mem_cons.mpr ⟨hhead c rfl, ih (fun d hd => ?_) hrest⟩
          exact hall d (List.mem_append_right (c :: word) hd)

theorem Cut.tail_not_digit (h : Cut cs ws) (hall : ∀ c ∈ cs, c.isAlphanum) :
    ∀ word ∈ ws.tail, word.head?.any Char.isDigit = false := by
  cases h with
  | gap => exact nofun
  | @word gap word rest words _ _ _ hrest h =>
      refine h.head_not_digit (fun c hc => ?_) hrest
      exact hall c (List.mem_append_right gap (List.mem_append_right word hc))

theorem letters_of_isAlphanum (hall : ∀ c ∈ cs, c.isAlphanum) :
    letters cs = cs.map Char.toLower := by
  rw [letters, List.filter_eq_self.mpr hall]

/-- Without gaps, pascal case changes the case of letters alone. -/
theorem lower_pascalCase (hall : ∀ c ∈ cs, c.isAlphanum) :
    (pascalCase cs).map Char.toLower = cs.map Char.toLower := by
  have hpascal : ∀ c ∈ pascalCase cs, c.isAlphanum := by
    intro c hc
    refine (mem_pascalCase hc).resolve_right ?_
    rintro ⟨-, word, hword, hdigit⟩
    rw [(cut_words cs).tail_not_digit hall word hword] at hdigit
    cases hdigit
  rw [← letters_of_isAlphanum hpascal, reading_letters.pascalCase, letters_of_isAlphanum hall]

theorem map_join (f : Char → Char) (pieces : List (List Char)) :
    (Text.join ['_'] pieces).map f = Text.join [f '_'] (pieces.map (List.map f)) := by
  induction pieces with
  | nil => rfl
  | cons piece pieces ih =>
      cases pieces with
      | nil => rfl
      | cons next pieces =>
          rw [Text.join, List.map_append, List.map_append, ih]
          rfl

/-- Underscores stay where they are. -/
def Kept (n : Naming) : Prop :=
  n.convention = .keep ∨ n.convention = .pascalCase ∧ n.transformUnderscore = false

/-- Where underscores stay, a name stays the same but for the case of its letters. -/
theorem lower_convert (hkept : n.Kept) (hname : ∀ c ∈ name.toList, isNameChar c) :
    lower (n.convert name) = lower name := by
  unfold convert
  rcases hkept with hkeep | ⟨hpascal, hkept⟩
  · rw [hkeep]
  · have hpieces : (Text.split '_' name.toList).map (List.map Char.toLower ∘ pascalCase) =
        (Text.split '_' name.toList).map (List.map Char.toLower) := by
      refine List.map_congr_left fun piece hpiece => lower_pascalCase fun c hc => ?_
      have hsign := Bool.or_eq_true_iff.mp (hname c (Text.subset_of_mem_split hpiece hc))
      refine hsign.resolve_right fun hunderscore => ?_
      rw [beq_iff_eq.mp hunderscore] at hc
      exact Text.not_mem_of_mem_split piece hpiece hc
    rw [hpascal, lower, lower]
    dsimp only
    rw [if_neg (by simp [hkept]), String.toList_ofList, map_join, List.map_map, hpieces,
      ← map_join, Text.join_split]

theorem isNameChar_of_isName (h : IsName name) : ∀ c ∈ name.toList, isNameChar c := by
  obtain ⟨c, cs, hcs, hc, hrest⟩ := h
  rw [hcs, List.forall_mem_cons]
  refine ⟨?_, hrest⟩
  rw [isNameStart, Bool.or_eq_true] at hc
  rw [isNameChar, Char.isAlphanum, Bool.or_eq_true, Bool.or_eq_true]
  exact hc.imp_left .inl

/-- Pascal case makes letters, digits and underscores of any text. It keeps the letters and digits
in their order, and the numbers as they are, so that no two of them run together. A name whose
underscores stay keeps all but the case of its letters, so that two names come to be the same only
if they differ in that. -/
theorem pascal_lossless (s : String) :
    (∀ c ∈ (pascal s).toList, c.isAlphanum ∨ c = '_') ∧
      letters (pascal s).toList = letters s.toList ∧
      numbers (pascal s).toList = numbers s.toList ∧
      ∀ n : Naming, n.convention = .pascalCase → n.transformUnderscore = false → IsName s →
        lower (n.convert s) = lower s ∧
          ∀ t, IsName t → n.convert s = n.convert t → lower s = lower t := by
  rw [pascal, String.toList_ofList]
  refine ⟨fun c hc => (mem_pascalCase hc).imp_right And.left, reading_letters.pascalCase _,
    reading_numbers.pascalCase _, fun n hpascal htransform hs => ?_⟩
  have hconvert {t : String} (ht : IsName t) : lower (n.convert t) = lower t :=
    lower_convert (.inr ⟨hpascal, htransform⟩) (isNameChar_of_isName ht)
  refine ⟨hconvert hs, fun t ht heq => ?_⟩
  rw [← hconvert hs, heq, hconvert ht]

/-- Two names that conversion takes to one differ in the case of their letters. -/
theorem pascal_lossless_api :
    let n := (Options.ofMembers []).naming
    IsName "api_v2_10b" ∧ IsName "API_V2_10b" ∧ n.convert "api_v2_10b" = n.convert "API_V2_10b" ∧
      lower "api_v2_10b" = lower "API_V2_10b" := by
  intro n
  have hs : IsName "api_v2_10b" := Graphql.isName_of rfl (by decide)
  have ht : IsName "API_V2_10b" := Graphql.isName_of rfl (by decide)
  have heq : n.convert "api_v2_10b" = n.convert "API_V2_10b" := by decide +kernel
  obtain ⟨-, -, -, hkept⟩ := pascal_lossless "api_v2_10b"
  exact ⟨hs, ht, heq, (hkept n rfl rfl hs).2 _ ht heq⟩

/-- A number stays apart from the one before it where the sign between them is left out. -/
example : pascal "x-86_64Bit" = "X_86_64Bit" := by decide +kernel

end Composables.Naming
