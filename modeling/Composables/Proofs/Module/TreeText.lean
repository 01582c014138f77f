import Composables.Module.Constant
import Composables.Proofs.Graphql.FloatFree

/-
  Reading trees. Between the brackets of a tree stand definitions as JSON and, behind three points,
  the constants from which more of them are taken. What is written is read up to its end, unless the
  name of a constant holds a point (`read?_elements`).
-/

namespace Composables

open Graphql (Definition)
open Json (Draft)

/-! ## Elements -/

/-- A definition in a tree, or a constant from which definitions are taken. -/
abbrev Element := Definition ⊕ String

/-- An element as it is read. -/
abbrev ReadElement := List Draft ⊕ List Char

namespace Element

def text : Element → List Char
  | .inl x => x.toJson.text
  | .inr r => '.' :: '.' :: '.' :: (r.toList ++ ".definitions".toList)

def read : Element → ReadElement
  | .inl x => .inl [x.toJson.draft]
  | .inr r => .inr r.toList

end Element

/-- The elements that a tree is written with. -/
def DocumentValue.elements : DocumentValue → List Element
  | .template .. => []
  | .complete definitions => definitions.map .inl
  | .spliced definition references => .inl definition :: references.map .inr

namespace TreeText

/-- What stands in front of the elements of a tree. -/
def front : List Char := "\x7b\"kind\":\"Document\",\"definitions\":[".toList

/-- What stands behind them. -/
def back : List Char := "]\x7d as unknown as DocumentNode".toList

theorem toList_append_intercalate (front back more : String) (texts : List String) :
    (front ++ ",".intercalate texts ++ back ++ more).toList =
      front.toList ++ Text.join [','] (texts.map String.toList) ++
        (back.toList ++ more.toList) := by
  rw [String.toList_append, String.toList_append, String.toList_append, String.toList_intercalate,
    Text.join_eq_intercalate, List.append_assoc]
  rfl

theorem toList_documentText (texts : List String) :
    (Graphql.documentText texts ++ " as unknown as DocumentNode").toList =
      front ++ Text.join [','] (texts.map String.toList) ++ back := by
  have hback : "]\x7d".toList ++ " as unknown as DocumentNode".toList = back := by decide +kernel
  rw [← hback]
  exact toList_append_intercalate _ _ _ texts

/-- A tree is written with its elements. -/
theorem toList_render {value : DocumentValue} (hsome : value.elements ≠ []) :
    value.render.toList = front ++ Text.join [','] (value.elements.map Element.text) ++ back := by
  have htexts : ∀ {texts : List String},
      texts.map String.toList = value.elements.map Element.text →
      (Graphql.documentText texts ++ " as unknown as DocumentNode").toList =
        front ++ Text.join [','] (value.elements.map Element.text) ++ back := fun h =>
    h ▸ toList_documentText _
  cases value with
  | template => exact absurd rfl hsome
  | complete definitions =>
      rw [DocumentValue.render_complete (by simpa [DocumentValue.elements] using hsome)]
      refine htexts ?_
      simp [DocumentValue.elements, Element.text, Json.text, Function.comp_def]
  | spliced definition references =>
      rw [DocumentValue.render, renderSpliced_eq]
      refine htexts ?_
      simp [DocumentValue.elements, Element.text, Json.text, Function.comp_def]

/-! ## Reading -/

/-- An element in front of a text, and what comes behind it. -/
def element? : List Char → Option (ReadElement × List Char)
  | '.' :: '.' :: '.' :: cs =>
    ((cs.dropWhile (· != '.')).dropPrefix? ".definitions".toList).map fun rest =>
      (.inr (cs.takeWhile (· != '.')), rest)
  | cs =>
    let (draft, rest) := Draft.value (2 * cs.length) cs
    if draft.isWhole then some (.inl [draft], rest) else none

/-- Elements with commas between them, and what comes behind the last one. -/
def elements? : ℕ → List Char → Option (List ReadElement × List Char)
  | 0, _ => none
  | fuel + 1, cs =>
    match element? cs with
    | some (e, ',' :: cs) => (elements? fuel cs).map (Prod.map (e :: ·) id)
    | some (e, cs) => some ([e], cs)
    | none => none

/-- The elements of a tree. -/
def read? (cs : List Char) : Option (List ReadElement) :=
  (cs.dropPrefix? front).bind fun cs => (elements? cs.length cs).bind fun (elements, rest) =>
    if rest = back then some elements else none

variable {e : Element} {es : List Element} {rest : List Char}

theorem exists_text (x : Definition) : ∃ cs, x.toJson.text = '\x7b' :: cs := by
  obtain ⟨ms, hms⟩ : ∃ ms, x.toJson = .object ms := by cases x <;> exact ⟨_, rfl⟩
  exact ⟨_, hms ▸ Json.text_object ms⟩

theorem element?_definition (x : Definition) (hrest : Json.Stops rest) :
    element? (x.toJson.text ++ rest) = some (.inl [x.toJson.draft], rest) := by
  have hread := Json.value_text x.toJson x.floatFree_toJson hrest
    (Nat.mul_le_mul_left 2 (List.length_append ▸ Nat.le_add_right _ rest.length))
  obtain ⟨cs, hcs⟩ := exists_text x
  rw [hcs, List.cons_append] at hread ⊢
  rw [element?]
  · dsimp only
    rw [hread]
    exact if_pos (Json.isWhole_draft x.floatFree_toJson)
  · rintro _ ⟨⟩

/-- The name of a constant lasts until the next point. -/
theorem element?_constant {name : List Char} (h : '.' ∉ name) :
    element? ('.' :: '.' :: '.' :: (name ++ ".definitions".toList) ++ rest) =
      some (.inr name, rest) := by
  have hname : ∀ c ∈ name, (c != '.') = true := by
    intro c hc
    rw [bne_iff_ne]
    rintro rfl
    exact h hc
  have hpoint : ".definitions".toList = '.' :: "definitions".toList := by decide
  have hdrop : (".definitions".toList ++ rest).dropWhile (· != '.') =
      ".definitions".toList ++ rest := by
    rw [hpoint]
    rfl
  have htake : (".definitions".toList ++ rest).takeWhile (· != '.') = [] := by
    rw [hpoint]
    rfl
  show element? ('.' :: '.' :: '.' :: (name ++ ".definitions".toList ++ rest)) = _
  rw [element?, List.append_assoc, List.dropWhile_append_of_pos hname,
    List.takeWhile_append_of_pos hname, hdrop, htake,
    List.dropPrefix?_append_of_beq rest (beq_self_eq_true _), List.append_nil]
  rfl

theorem element?_text (he : ∀ r, e = .inr r → '.' ∉ r.toList) (hrest : Json.Stops rest) :
    element? (e.text ++ rest) = some (e.read, rest) := by
  cases e with
  | inl x => exact element?_definition x hrest
  | inr r => exact element?_constant (he r rfl)

/-- Elements are read up to the bracket behind the last one. -/
theorem elements?_text {fuel : ℕ} (es : List Element) (e : Element)
    (hes : ∀ e' ∈ e :: es, ∀ r, e' = .inr r → '.' ∉ r.toList)
    (hfuel : (Text.join [','] ((e :: es).map Element.text)).length ≤ fuel) :
    elements? (fuel + 1) (Text.join [','] ((e :: es).map Element.text) ++ ']' :: rest) =
      some ((e :: es).map Element.read, ']' :: rest) := by
  -- a step reads one element with its comma, which leaves room for the steps of the others
  induction es generalizing e fuel with
  | nil =>
      show elements? (fuel + 1) (e.text ++ ']' :: rest) = _
      rw [elements?, element?_text (hes e List.mem_cons_self) (Json.stops_cons (by simp))]
      rfl
  | cons e' es ih =>
      have hjoin : Text.join [','] ((e :: e' :: es).map Element.text) =
          e.text ++ ',' :: Text.join [','] ((e' :: es).map Element.text) :=
        Json.join_cons Element.text e (e' :: es)
      have hrest := List.forall_mem_of_forall_mem_cons hes
      rw [hjoin, List.length_append, List.length_cons] at hfuel
      obtain ⟨fuel, rfl⟩ : ∃ n, fuel = n + 1 := ⟨fuel - 1, by omega⟩
      rw [hjoin, List.append_assoc, List.cons_append, elements?,
        element?_text (hes e List.mem_cons_self) (Json.stops_cons (by simp))]
      show (elements? (fuel + 1) _).map _ = _
      rw [ih e' hrest (by omega)]
      rfl

/-- The elements of a tree are read from its text. -/
theorem read?_elements {es : List Element} (hsome : es ≠ [])
    (hes : ∀ e ∈ es, ∀ r, e = .inr r → '.' ∉ r.toList) :
    read? (front ++ Text.join [','] (es.map Element.text) ++ back) =
      some (es.map Element.read) := by
  obtain ⟨e, es, rfl⟩ := List.exists_cons_of_ne_nil hsome
  have hback : back = ']' :: "\x7d as unknown as DocumentNode".toList := by decide
  rw [read?, List.append_assoc, List.dropPrefix?_append_of_beq _ (beq_self_eq_true _),
    Option.bind_some, hback, List.length_append, List.length_cons, ← Nat.add_assoc,
    elements?_text es e hes (Nat.le_add_right _ _), Option.bind_some]
  exact if_pos hback.symm

end TreeText

end Composables
