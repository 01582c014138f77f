import Composables.Module.Constant
import Composables.Options
import Mathlib.Data.List.Basic
import Mathlib.Tactic.SplitIfs

/-
  Reading template literals. A literal is scanned from left to right: a backslash takes a sign
  along that would mean something else, a backtick ends the literal, and a dollar in front of a
  brace opens a substitution. What is written around and inside of a text comes back from it
  (`scan_template`). Line ends are taken as they are.
-/

namespace Composables.Template

/-! ## Scanning -/

inductive Piece where
  | text (cs : List Char)
  /-- The expression of a substitution. -/
  | substitution (cs : List Char)
deriving DecidableEq, Repr

/-- Puts a sign in front of the pieces, into the text that they begin with if they do. -/
def attach (c : Char) : List Piece → List Piece
  | .text cs :: pieces => .text (c :: cs) :: pieces
  | pieces => .text [c] :: pieces

/-- What a backslash keeps from its meaning. -/
def isSign (c : Char) : Bool := c == '\\' || c == '`' || c == '$'

mutual

/-- The pieces up to the end of a literal, and what stands behind it. No other signs than those with
a meaning of their own are read behind a backslash. -/
def scanText : List Char → Option (List Piece × List Char)
  | [] => none
  | '`' :: cs => some ([], cs)
  | '\\' :: c :: cs => if isSign c then (scanText cs).map (Prod.map (attach c) id) else none
  | '$' :: '\x7b' :: cs => scanSubstitution [] cs
  | c :: cs => (scanText cs).map (Prod.map (attach c) id)

/-- Goes on from inside of a substitution, which lasts until the next closing brace. -/
def scanSubstitution (front : List Char) : List Char → Option (List Piece × List Char)
  | [] => none
  | '\x7d' :: cs => (scanText cs).map (Prod.map (.substitution front :: ·) id)
  | c :: cs => scanSubstitution (front ++ [c]) cs

end

/-- The pieces of a literal, and what stands behind it. -/
def scan : List Char → Option (List Piece × List Char)
  | '`' :: cs => scanText cs
  | _ => none

variable {c : Char} {cs rest : List Char} {pieces : List Piece}

theorem scanText_escaped (hc : isSign c) (cs : List Char) :
    scanText ('\\' :: c :: cs) = (scanText cs).map (Prod.map (attach c) id) := by
  rw [scanText, if_pos hc]

/-- A sign stands for itself unless it is one that would be escaped. -/
theorem scanText_plain (hescape : c ≠ '\\') (hend : c ≠ '`')
    (hopen : c = '$' → cs.head? ≠ some '\x7b') :
    scanText (c :: cs) = (scanText cs).map (Prod.map (attach c) id) := by
  rw [scanText]
  · exact hend
  · rintro _ _ rfl
    exact absurd rfl hescape
  · rintro _ rfl rfl
    exact absurd rfl (hopen rfl)

theorem scanSubstitution_append {name : List Char} (h : '\x7d' ∉ name) (front : List Char) :
    scanSubstitution front (name ++ '\x7d' :: rest) =
      (scanText rest).map (Prod.map (.substitution (front ++ name) :: ·) id) := by
  induction name generalizing front with
  | nil => rw [List.nil_append, scanSubstitution, List.append_nil]
  | cons c name ih =>
      rw [List.mem_cons, not_or] at h
      rw [List.cons_append, scanSubstitution, ih h.2, List.append_assoc, List.singleton_append]
      exact Ne.symm h.1

/-! ## Escaped text -/

theorem head?_escapeTemplate (cs : List Char) :
    (escapeTemplate cs).head? = some '\x7b' ↔ cs.head? = some '\x7b' := by
  cases cs using escapeTemplate.fun_cases <;> simp_all [escapeTemplate]

/-- Texts are escaped side by side, unless a substitution opens at their seam. -/
theorem escapeTemplate_append {ds : List Char} (h : ds.head? ≠ some '\x7b') (cs : List Char) :
    escapeTemplate (cs ++ ds) = escapeTemplate cs ++ escapeTemplate ds := by
  induction cs using escapeTemplate.induct with
  | case1 cs ih => simp [escapeTemplate, ih]
  | case2 cs ih => simp [escapeTemplate, ih]
  | case3 cs ih => simp [escapeTemplate, ih]
  | case4 c cs hescape hend hopen ih =>
      -- a dollar at the end stays plain, as no brace comes behind it
      have hseam : ∀ cs', c = '$' → cs ++ ds = '\x7b' :: cs' → False := by
        intro cs' hc hcs
        cases cs with
        | nil => exact h (by rw [show ds = '\x7b' :: cs' from hcs]; rfl)
        | cons d cs => exact hopen cs hc (by rw [(List.cons.inj hcs).1])
      rw [List.cons_append, escapeTemplate, escapeTemplate, ih, List.cons_append]
      all_goals assumption
  | case5 => rfl

/-- An escaped text is scanned as the text. -/
theorem scanText_escapeTemplate (h : rest.head? ≠ some '\x7b') (cs : List Char) :
    scanText (escapeTemplate cs ++ rest) =
      (scanText rest).map (Prod.map (fun pieces => cs.foldr attach pieces) id) := by
  induction cs using escapeTemplate.induct with
  | case1 cs ih =>
      rw [escapeTemplate, List.cons_append, List.cons_append, scanText_escaped (by decide), ih,
        Option.map_map]
      rfl
  | case2 cs ih =>
      rw [escapeTemplate, List.cons_append, List.cons_append, scanText_escaped (by decide), ih,
        Option.map_map]
      rfl
  | case3 cs ih =>
      rw [escapeTemplate, List.cons_append, List.cons_append, List.cons_append,
        scanText_escaped (by decide), scanText_plain (by decide) (by decide) (by simp), ih,
        Option.map_map, Option.map_map]
      rfl
  | case4 c cs hescape hend hopen ih =>
      -- a dollar sign that is not escaped has no brace behind it, in the text or at its end
      have hplain : c = '$' → (escapeTemplate cs ++ rest).head? ≠ some '\x7b' := by
        intro hc hhead
        rw [List.head?_append, Option.or_eq_some_iff] at hhead
        rcases hhead with hhead | ⟨_, hhead⟩
        · obtain ⟨cs', hcs⟩ := List.head?_eq_some_iff.mp ((head?_escapeTemplate cs).mp hhead)
          exact hopen cs' hc hcs
        · exact h hhead
      rw [escapeTemplate, List.cons_append, scanText_plain hescape hend hplain, ih, Option.map_map]
      · rfl
      all_goals assumption
  | case5 =>
      rw [escapeTemplate, List.nil_append]
      exact (Option.map_id' ..).symm

/-! ## Replacements one after another -/

/-- Puts other signs in the place of a pattern, from left to right. -/
def replace (pattern put : List Char) : List Char → List Char
  | [] => []
  | c :: cs =>
    if pattern.isPrefixOf (c :: cs) then put ++ replace pattern put (cs.drop (pattern.length - 1))
    else c :: replace pattern put cs
termination_by cs => cs.length
decreasing_by all_goals simp only [List.length_drop, List.length_cons]; omega

theorem replace_sign (a : Char) (put cs : List Char) :
    replace [a] put cs = cs.flatMap fun c => if c = a then put else [c] := by
  induction cs with
  | nil => rw [replace, List.flatMap_nil]
  | cons c cs ih =>
      rw [replace, List.flatMap_cons]
      by_cases hc : c = a
      · subst hc
        simp [ih]
      · simp [hc, Ne.symm hc, ih]

/-- A backslash and a backtick behind a backslash, other signs alone. -/
def escapeSign (c : Char) : List Char :=
  if c = '\\' then ['\\', '\\'] else if c = '`' then ['\\', '`'] else [c]

theorem replace_replace (cs : List Char) :
    replace ['`'] ['\\', '`'] (replace ['\\'] ['\\', '\\'] cs) = cs.flatMap escapeSign := by
  rw [replace_sign, replace_sign, List.flatMap_assoc]
  refine List.flatMap_congr fun c _ => ?_
  unfold escapeSign
  split <;> simp

theorem head?_flatMap_escapeSign (cs : List Char) :
    (cs.flatMap escapeSign).head? = some '\x7b' → cs.head? = some '\x7b' := by
  cases cs with
  | nil => exact id
  | cons c cs =>
      rw [List.flatMap_cons, escapeSign]
      split_ifs <;> simp

theorem replace_plain {put : List Char} (h : c = '$' → cs.head? ≠ some '\x7b') :
    replace ['$', '\x7b'] put (c :: cs) = c :: replace ['$', '\x7b'] put cs := by
  rw [replace, if_neg]
  rw [List.isPrefixOf_iff_prefix, List.cons_prefix_cons]
  rintro ⟨hc, cs', rfl⟩
  exact h hc.symm rfl

theorem replace_open (put cs : List Char) :
    replace ['$', '\x7b'] put ('$' :: '\x7b' :: cs) = put ++ replace ['$', '\x7b'] put cs := by
  rw [replace, if_pos (by simp)]
  rfl

/-- Escaping doubles the backslashes, then escapes the backticks, and then what would open a
substitution. No replacement disturbs one before it. -/
theorem escapeTemplate_eq_replace (cs : List Char) :
    escapeTemplate cs = replace ['$', '\x7b'] ['\\', '$', '\x7b']
      (replace ['`'] ['\\', '`'] (replace ['\\'] ['\\', '\\'] cs)) := by
  have hsign : ∀ c cs, c ≠ '$' → replace ['$', '\x7b'] ['\\', '$', '\x7b'] (c :: cs) =
      c :: replace ['$', '\x7b'] ['\\', '$', '\x7b'] cs :=
    fun c cs hc => replace_plain fun h => absurd h hc
  rw [replace_replace]
  induction cs using escapeTemplate.induct with
  | case1 cs ih =>
      rw [escapeTemplate, ih, List.flatMap_cons]
      exact ((hsign '\\' _ (by decide)).trans (congrArg _ (hsign '\\' _ (by decide)))).symm
  | case2 cs ih =>
      rw [escapeTemplate, ih, List.flatMap_cons]
      exact ((hsign '\\' _ (by decide)).trans (congrArg _ (hsign '`' _ (by decide)))).symm
  | case3 cs ih =>
      rw [escapeTemplate, ih, List.flatMap_cons, List.flatMap_cons]
      exact (replace_open ['\\', '$', '\x7b'] (cs.flatMap escapeSign)).symm
  | case4 c cs hescape hend hopen ih =>
      have hself : escapeSign c = [c] := by rw [escapeSign, if_neg hescape, if_neg hend]
      have hplain : c = '$' → (cs.flatMap escapeSign).head? ≠ some '\x7b' := by
        intro hc hhead
        obtain ⟨cs', hcs⟩ := List.head?_eq_some_iff.mp (head?_flatMap_escapeSign cs hhead)
        exact hopen cs' hc hcs
      rw [escapeTemplate, ih, List.flatMap_cons, hself, List.singleton_append,
        replace_plain hplain]
      all_goals assumption
  | case5 => rw [escapeTemplate, List.flatMap_nil, replace]

/-! ## Literals -/

/-- What stands around the text of a template. -/
def margin : List Char := ['\n', ' ', ' ', ' ', ' ']

/-- A reference inside of a template. -/
def substitute (r : String) : List Char := '$' :: '\x7b' :: (r.toList ++ ['\x7d'])

theorem toList_renderTemplate (text : String) (references : List String) :
    (renderTemplate text references).toList =
      '`' :: (margin ++ escapeTemplate text.toList ++ margin ++
        (['\n'].intercalate (references.map substitute) ++ ['`'])) := by
  have hsubstitute : (String.toList ∘ fun r => "$\x7b" ++ r ++ "\x7d") = substitute := by
    funext r
    simp [substitute]
  simp [renderTemplate, margin, hsubstitute, String.toList_intercalate]

theorem scanText_substitute {r : String} (h : '\x7d' ∉ r.toList) (cs : List Char) :
    scanText (substitute r ++ cs) =
      (scanText cs).map (Prod.map (.substitution r.toList :: ·) id) := by
  rw [substitute, List.cons_append, List.cons_append, List.append_assoc, List.singleton_append]
  exact scanSubstitution_append h []

/-- Substitutions on lines of their own, up to the end of the literal. -/
theorem scanText_references {references : List String} (h : ∀ r ∈ references, '\x7d' ∉ r.toList) :
    scanText (['\n'].intercalate (references.map substitute) ++ '`' :: rest) =
      some ((references.map fun r => .substitution r.toList).intersperse (.text ['\n']), rest) := by
  induction references with
  | nil => rfl
  | cons r references ih =>
      rw [List.forall_mem_cons] at h
      cases references with
      | nil =>
          rw [List.map_singleton, List.intercalate_singleton, scanText_substitute h.1]
          rfl
      | cons r' references =>
          rw [List.map_cons, List.map_cons, List.intercalate_cons_cons, ← List.map_cons,
            List.append_assoc, List.append_assoc, scanText_substitute h.1, List.singleton_append,
            scanText_plain (by decide) (by decide) (fun h => absurd h (by decide)), ih h.2]
          cases references <;> rfl

theorem head?_references (references : List String) :
    (['\n'].intercalate (references.map substitute) ++ ['`']).head? ≠ some '\x7b' := by
  cases references with
  | nil => simp
  | cons r references => cases references <;> simp [substitute]

theorem escapeTemplate_margin (cs : List Char) :
    margin ++ escapeTemplate cs ++ margin = escapeTemplate (margin ++ cs ++ margin) := by
  rw [List.append_assoc, List.append_assoc]
  show _ = margin ++ escapeTemplate (cs ++ margin)
  rw [escapeTemplate_append (by decide)]
  rfl

theorem foldr_attach (cs ds : List Char) (pieces : List Piece) :
    cs.foldr attach (.text ds :: pieces) = .text (cs ++ ds) :: pieces := by
  induction cs with
  | nil => rfl
  | cons c cs ih => rw [List.foldr_cons, ih, attach, List.cons_append]

/-- In front of substitutions, a text with its margin becomes a piece of its own. -/
theorem foldr_attach_margin (cs : List Char) (references : List String) :
    let pieces : List Piece :=
      (references.map fun r => .substitution r.toList).intersperse (.text ['\n'])
    (cs ++ margin).foldr attach pieces = .text (cs ++ margin) :: pieces := by
  intro pieces
  have hmargin : margin.foldr attach pieces = .text margin :: pieces := by
    cases references with
    | nil => rfl
    | cons r references => cases references <;> rfl
  rw [List.foldr_append, hmargin, foldr_attach]

theorem scan_renderTemplate {references : List String} (h : ∀ r ∈ references, '\x7d' ∉ r.toList)
    (text : String) :
    scan (renderTemplate text references).toList =
      some (.text (margin ++ text.toList ++ margin) ::
        (references.map fun r => .substitution r.toList).intersperse (.text ['\n']), []) := by
  have hscan := scanText_escapeTemplate (head?_references references)
    (margin ++ text.toList ++ margin)
  rw [scanText_references h, Option.map_some, Prod.map_apply, foldr_attach_margin] at hscan
  rw [toList_renderTemplate, escapeTemplate_margin]
  exact hscan

/-- What a template holds is read as a text with its margin, and behind it the references as
substitutions with line feeds between them. The literal ends where its text ends, and its text is
escaped by three replacements one after another. -/
theorem scan_template (n : Naming) (text : String) (names : List String)
    (h : ∀ name ∈ names, '\x7d' ∉ (n.fragmentConstant name).toList) :
    escapeTemplate text.toList = replace ['$', '\x7b'] ['\\', '$', '\x7b']
        (replace ['`'] ['\\', '`'] (replace ['\\'] ['\\', '\\'] text.toList)) ∧
      scan (renderTemplate text (names.map n.fragmentConstant)).toList =
        some (.text (margin ++ text.toList ++ margin) ::
          (names.map fun name => .substitution (n.fragmentConstant name).toList).intersperse
            (.text ['\n']), []) := by
  refine ⟨escapeTemplate_eq_replace text.toList, ?_⟩
  rw [scan_renderTemplate (List.forall_mem_map.mpr h), List.map_map]
  rfl

/-- A text of nothing but signs that mean something, with two references below it. -/
theorem scan_template_signs :
    let n := (Options.ofMembers []).naming
    let signs := "\\\\$\x7b`$$\x7b\x7d\\`$"
    (∀ name ∈ ["user", "item_row"], '\x7d' ∉ (n.fragmentConstant name).toList) ∧
      escapeTemplate signs.toList = replace ['$', '\x7b'] ['\\', '$', '\x7b']
        (replace ['`'] ['\\', '`'] (replace ['\\'] ['\\', '\\'] signs.toList)) ∧
      scan (renderTemplate signs (["user", "item_row"].map n.fragmentConstant)).toList =
        some ([.text ("\n    ".toList ++ signs.toList ++ "\n    ".toList),
          .substitution "UserFragmentDoc".toList, .text ['\n'],
          .substitution "Item_RowFragmentDoc".toList], []) := by
  intro n signs
  have h : ∀ name ∈ ["user", "item_row"], '\x7d' ∉ (n.fragmentConstant name).toList := by
    decide +kernel
  obtain ⟨hreplace, hscan⟩ := scan_template n signs ["user", "item_row"] h
  exact ⟨h, hreplace, hscan.trans (by decide +kernel)⟩

end Composables.Template
