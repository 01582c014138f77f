import Composables.Proofs.Graphql.Kept

/-
  Printing a definition and reading it again: the print is one definition of the same encoding
  exactly if the literals are kept (`readsBack_iff`).
-/

namespace Composables.Graphql

open Composables.Graphql.Parser (tokensOf follows_any)

variable {text : String} {x y : Definition} {room : Nat} {ts : List (Option Token)}

/-! ## Positions aside -/

mutual

theorem Selection.toJson_unread (indent : Nat) :
    ∀ s : Selection, (s.reread unread indent).toJson = s.toJson
  | .field position alias? name arguments directives selections => by
    have hempty : (rereadAll unread (indent + 2) selections).isEmpty = selections.isEmpty := by
      rw [Grammar.rereadAll_eq, List.isEmpty_map]
    rw [Selection.reread, rereadFields_unread, map_reread_unread, Selection.toJson,
      Selection.toJson, setNode, setNode, hempty, selectionNodes_unread (indent + 2) selections]
  | .spread position name directives => by
    rw [Selection.reread, map_reread_unread, Selection.toJson, Selection.toJson]
  | .inline position condition? directives selections => by
    rw [Selection.reread, map_reread_unread, Selection.toJson, Selection.toJson, setNode, setNode,
      selectionNodes_unread (indent + 2) selections]

theorem selectionNodes_unread (indent : Nat) :
    ∀ ss : List Selection, selectionNodes (rereadAll unread indent ss) = selectionNodes ss
  | [] => rfl
  | s :: ss => by
    rw [rereadAll, selectionNodes, selectionNodes, s.toJson_unread indent,
      selectionNodes_unread indent ss]

end

theorem setNode_unread (ss : List Selection) : setNode (rereadAll unread 2 ss) = setNode ss := by
  rw [setNode, setNode, selectionNodes_unread]

/-- Whether a definition that is an operation has a name. -/
def Definition.Named (x : Definition) : Prop := ∀ d, x = .operation d → d.name? ≠ none

/-- The encoding does not tell positions. -/
theorem Definition.toJson_unread (hnamed : x.Named) : (x.reread unread).toJson = x.toJson := by
  cases x with
  | shorthand position selections =>
      rw [reread, toJson, toJson, operationNode, operationNode, setNode_unread]
  | operation d =>
      have hshown : d.shown = d.variableDefinitions := if_neg fun h => hnamed d rfl h.2
      rw [reread, toJson, toJson, OperationDefinition.toJson, OperationDefinition.toJson,
        OperationDefinition.reread, operationNode, operationNode, map_reread_unread, setNode_unread,
        hshown, map_variables_unread]
  | fragment d =>
      rw [reread, toJson, toJson, FragmentDefinition.toJson, FragmentDefinition.toJson,
        FragmentDefinition.reread, map_reread_unread, setNode_unread]

/-! ## Reading one definition -/

theorem parseDocument_eq_ok (h : x.Formed Grammar.depthLimit)
    (hscan : Scans .strict text.toList (x.tokens strictly))
    (hread : AllRead (x.tokens strictly)) :
    ∃ y, parseDocument text = .ok [y] ∧ y.reread unread = x.reread strictly := by
  obtain ⟨hcomplete, htokens⟩ := (hscan.from (Nat.lt_succ_self _) .start).2 hread
  obtain ⟨y, rest, hy, hrest, heq⟩ := Grammar.takes_definition strict_atomic h
    (Scan.ofText text.toList).lexemes [] (by rw [List.append_nil]; exact htokens) (follows_any [])
  obtain rfl : rest = [] := List.map_eq_nil_iff.mp hrest
  refine ⟨y, ?_, heq⟩
  have hmany : Parser.many1 (fun _ => true) (Grammar.definition Grammar.depthLimit)
      (Scan.ofText text.toList).lexemes = .ok ([y], []) := by
    refine Outcome.bind_eq_ok.mpr ⟨(y, []), hy, ?_⟩
    refine Outcome.bind_eq_ok.mpr ⟨([], []), ?_, rfl⟩
    rw [Parser.many]
  unfold parseDocument Parser.run
  dsimp only
  rw [hmany]
  exact if_pos hcomplete

theorem not_parseDocument (hscan : Scans .strict text.toList ts) (hread : ¬ AllRead ts)
    (ys : List Definition) : parseDocument text ≠ .ok ys := by
  have hcomplete := (hscan.from (Nat.lt_succ_self _) .start).1 (not_not.mp hread)
  intro hparse
  unfold parseDocument Parser.run at hparse
  dsimp only at hparse
  split at hparse
  · cases hparse
  · cases hparse
  · cases hparse
  · rw [Scan.ofText, hcomplete] at hparse
    cases hparse

/-- The print of a definition is read as one definition, of the same encoding. -/
def Definition.ReadsBack (x : Definition) : Prop :=
  ∃ y, parseDocument x.print = .ok [y] ∧ y.toJson = x.toJson

/-- A definition reads back exactly if its literals are kept. -/
theorem readsBack_iff (h : x.Formed Grammar.depthLimit) (hnamed : x.Named) :
    x.ReadsBack ↔ ∀ v ∈ x.literals, v.Kept := by
  have hscan : Scans .strict x.print.toList (x.tokens strictly) := Definition.scans_print h
  have hshown : ∀ d, x = .operation d → d.shown = d.variableDefinitions :=
    fun d hd => if_neg fun hhidden => hnamed d hd hhidden.2
  rw [← Definition.kept_iff h hshown]
  have hjson : ∀ y : Definition, y.reread unread = x.reread strictly →
      y.toJson = (x.reread strictly).toJson := by
    intro y hy
    rw [← hy, Definition.toJson_unread]
    rintro d rfl
    cases x with
    | shorthand => cases hy
    | fragment => cases hy
    | operation e =>
        have hd : d.reread unread = e.reread strictly := Definition.operation.inj hy
        have hname : (d.reread unread).name? = (e.reread strictly).name? := congrArg _ hd
        exact hname.trans_ne (hnamed e rfl)
  constructor
  · rintro ⟨y, hparse, hy⟩
    have hread : AllRead (x.tokens strictly) := by
      by_contra hread
      exact not_parseDocument hscan hread _ hparse
    obtain ⟨y', hparse', hy'⟩ := parseDocument_eq_ok h hscan hread
    obtain rfl := (List.cons.inj (Except.ok.inj (hparse.symm.trans hparse'))).1
    exact ⟨hread, (hjson y hy').symm.trans hy⟩
  · rintro ⟨hread, hkept⟩
    obtain ⟨y, hparse, hy⟩ := parseDocument_eq_ok h hscan hread
    exact ⟨y, hparse, (hjson y hy).trans hkept⟩

end Composables.Graphql
