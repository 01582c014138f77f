import Composables.Proofs.Graphql.Printed
import Composables.Proofs.Graphql.Retake

/-
  What the print of a definition says whatever its literals are. Two definitions with one print are
  the same but for positions and for what their literals stand for (`Definition.sketch_of_print`);
  so they spread the same fragments and ask for the same types (`printTells_of_formed`).
-/

namespace Composables.Graphql

open Composables.Graphql.Parser (tokensOf follows_any)

variable {x y : Definition} {room : Nat} {ts : List (Option Token)}

/-! ## Literals as they are written -/

/-- How literals are read if they are taken as they are written. -/
abbrev verbatimly : Reading := Reader.verbatim.reading

theorem verbatimly_string (indent : Nat) (s : String) : verbatimly indent (.string s) ≠ none := by
  have hread : verbatimly indent (.string s) =
      if BlockString.fits s.toList then Reader.verbatim.block (BlockString.inner indent s.toList)
      else Reader.verbatim.quoted (StringLiteral.encode s.toList) := rfl
  rw [hread]
  split <;> exact Option.some_ne_none _

theorem verbatimly_float (indent : Nat) (x : Decimal.Binary64) :
    verbatimly indent (.float x) ≠ none := by
  have hread : verbatimly indent (.float x) = if x = .infinite false then some (.name "inf")
      else Reader.verbatim.number (printedFloat.render x).toList := rfl
  rw [hread]
  split <;> exact Option.some_ne_none _

mutual

theorem Value.allRead_verbatim (indent : Nat) : ∀ v : Value, AllRead (v.tokens verbatimly indent)
  | .int n => by simp [Value.tokens, AllRead, Reader.reading, Reader.verbatim]
  | .float x => by simpa [Value.tokens, AllRead] using (verbatimly_float indent x).symm
  | .string s => by simpa [Value.tokens, AllRead] using (verbatimly_string indent s).symm
  | .variable _ => by simp [Value.tokens, AllRead]
  | .boolean _ => by simp [Value.tokens, AllRead]
  | .null => by simp [Value.tokens, AllRead]
  | .enum _ => by simp [Value.tokens, AllRead]
  | .list items => by
    simpa [Value.tokens, allRead_cons, allRead_append, allRead_nil] using allRead_items indent items
  | .object fields => by
    simpa [Value.tokens, allRead_cons, allRead_append, allRead_nil] using
      allRead_fields indent fields

theorem allRead_items (indent : Nat) : ∀ vs : List Value, AllRead (itemTokens verbatimly indent vs)
  | [] => allRead_nil
  | v :: vs => allRead_append.mpr ⟨v.allRead_verbatim indent, allRead_items indent vs⟩

theorem allRead_fields (indent : Nat) :
    ∀ fields : List (String × Value), AllRead (fieldTokens verbatimly indent fields)
  | [] => allRead_nil
  | (k, v) :: fields => by
    simpa [fieldTokens, allRead_cons, allRead_append] using
      ⟨v.allRead_verbatim indent, allRead_fields indent fields⟩

end

theorem allRead_arguments (indent : Nat) (arguments : Arguments) :
    AllRead (argumentTokens verbatimly indent arguments) := by
  unfold argumentTokens
  split
  · exact allRead_nil
  · simpa [allRead_cons, allRead_append, allRead_nil] using allRead_fields indent arguments

theorem allRead_directives (indent : Nat) (ds : List Directive) :
    AllRead (directiveTokens verbatimly indent ds) := by
  induction ds with
  | nil => exact allRead_nil
  | cons d ds ih =>
      simpa [directiveTokens, Directive.tokens, allRead_cons, allRead_append] using
        ⟨allRead_arguments indent d.arguments, ih⟩

mutual

theorem Selection.allRead_verbatim (indent : Nat) :
    ∀ s : Selection, AllRead (s.tokens verbatimly indent)
  | .field position alias? name arguments directives selections => by
    have hset : AllRead (
        if selections.isEmpty then [] else setTokens verbatimly indent selections) := by
      split
      · exact allRead_nil
      · simpa [setTokens, allRead_cons, allRead_append, allRead_nil] using
          allRead_selections (indent + 2) selections
    exact allRead_append.mpr ⟨allRead_append.mpr ⟨allRead_append.mpr ⟨allRead_label alias? name,
      allRead_arguments indent arguments⟩, allRead_directives indent directives⟩, hset⟩
  | .spread position name directives => by
    simpa [Selection.tokens, allRead_cons] using allRead_directives indent directives
  | .inline position condition? directives selections => by
    simpa [Selection.tokens, allRead_cons, allRead_append, allRead_nil] using
      ⟨allRead_condition condition?, allRead_directives indent directives,
        allRead_selections (indent + 2) selections⟩

theorem allRead_selections (indent : Nat) :
    ∀ ss : List Selection, AllRead (selectionTokens verbatimly indent ss)
  | [] => allRead_nil
  | s :: ss => allRead_append.mpr ⟨s.allRead_verbatim indent, allRead_selections indent ss⟩

end

theorem allRead_set (ss : List Selection) : AllRead (setTokens verbatimly 0 ss) := by
  simpa [setTokens, allRead_cons, allRead_append, allRead_nil] using allRead_selections 2 ss

theorem VariableDefinition.allRead_verbatim (v : VariableDefinition) :
    AllRead (v.tokens verbatimly) := by
  unfold tokens
  cases v.default? with
  | none => simp [allRead_cons, allRead_type]
  | some d => simpa [allRead_cons, allRead_append, allRead_type] using d.allRead_verbatim 0

theorem allRead_variables (vs : List VariableDefinition) :
    AllRead (variableTokens verbatimly vs) := by
  unfold variableTokens
  split
  · exact allRead_nil
  · have hall : AllRead (vs.flatMap (VariableDefinition.tokens verbatimly)) := by
      intro hnone
      obtain ⟨v, _, hv⟩ := List.mem_flatMap.mp hnone
      exact v.allRead_verbatim hv
    simpa [allRead_cons, allRead_append, allRead_nil] using hall

theorem Definition.allRead_verbatim : ∀ x : Definition, AllRead (x.tokens verbatimly)
  | .shorthand _ ss => allRead_set ss
  | .operation d => by
    have hname : AllRead (d.name?.toList.map (some ∘ Token.name)) := by
      cases d.name? <;> simp [AllRead]
    simpa [tokens, OperationDefinition.tokens, allRead_cons, allRead_append] using
      ⟨hname, allRead_variables d.shown, allRead_directives 0 d.directives,
        allRead_set d.selections⟩
  | .fragment d => by
    simpa [tokens, FragmentDefinition.tokens, allRead_cons, allRead_append] using
      ⟨allRead_directives 0 d.directives, allRead_set d.selections⟩

/-! ## Equal prints -/

/-- A definition without its positions, and with each literal as it is written. -/
def Definition.sketch (x : Definition) : Definition := x.reread verbatimly

theorem exists_tokens (h : AllRead ts) : ∃ tokens : List Token, ts = tokens.map some := by
  induction ts with
  | nil => exact ⟨[], rfl⟩
  | cons o ts ih =>
      rw [allRead_cons] at h
      obtain ⟨t, rfl⟩ := Option.ne_none_iff_exists'.mp h.1
      obtain ⟨tokens, rfl⟩ := ih h.2
      exact ⟨t :: tokens, rfl⟩

/-- Definitions with one print are the same but for positions and for what their literals say. -/
theorem Definition.sketch_of_print (hx : x.Formed room) (hy : y.Formed room)
    (h : x.print = y.print) : x.sketch = y.sketch := by
  have hscanx : Scans .verbatim x.print.toList (x.tokens verbatimly) := scans_print hx
  have hscany : Scans .verbatim y.print.toList (y.tokens verbatimly) := scans_print hy
  obtain ⟨xtokens, hxtokens⟩ := exists_tokens x.allRead_verbatim
  obtain ⟨ytokens, hytokens⟩ := exists_tokens y.allRead_verbatim
  obtain rfl : xtokens = ytokens := by
    rw [hxtokens, h] at hscanx
    rw [hytokens] at hscany
    exact hscanx.unique hscany
  -- both are what the grammar gives for these tokens
  have hlexemes : tokensOf (xtokens.map (Lexeme.mk .start)) = xtokens.map some := by
    rw [tokensOf, List.map_map]
    rfl
  obtain ⟨x', _, hx', _, hsketchx⟩ := Grammar.takes_definition verbatim_atomic hx
    (xtokens.map (Lexeme.mk .start)) [] (by rw [hlexemes, hxtokens, List.append_nil])
    (follows_any [])
  obtain ⟨y', _, hy', _, hsketchy⟩ := Grammar.takes_definition verbatim_atomic hy
    (xtokens.map (Lexeme.mk .start)) [] (by rw [hlexemes, hytokens, List.append_nil])
    (follows_any [])
  obtain rfl : x' = y' := (Prod.mk.inj (Except.ok.inj (hx'.symm.trans hy'))).1
  exact hsketchx.symm.trans hsketchy

/-! ## What a sketch asks for -/

mutual

/-- Reading literals changes no name. -/
theorem Selection.walk_reread {read : Reading} {α : Type} {f : Selection → Option α}
    (hf : ∀ indent s, f (Selection.reread read indent s) = f s) (indent : Nat) :
    ∀ s : Selection, (s.reread read indent).walk.filterMap f = s.walk.filterMap f
  | .field position alias? name arguments directives selections => by
    have hhead := hf indent (.field position alias? name arguments directives selections)
    have htail := walkAll_reread hf (indent + 2) selections
    rw [Selection.reread] at hhead ⊢
    rw [Selection.walk, Selection.walk, List.filterMap_cons, List.filterMap_cons, hhead, htail]
  | .spread position name directives => by
    have hhead := hf indent (.spread position name directives)
    rw [Selection.reread] at hhead ⊢
    rw [Selection.walk, Selection.walk, List.filterMap_cons, List.filterMap_cons, hhead]
  | .inline position condition? directives selections => by
    have hhead := hf indent (.inline position condition? directives selections)
    have htail := walkAll_reread hf (indent + 2) selections
    rw [Selection.reread] at hhead ⊢
    rw [Selection.walk, Selection.walk, List.filterMap_cons, List.filterMap_cons, hhead, htail]

theorem walkAll_reread {read : Reading} {α : Type} {f : Selection → Option α}
    (hf : ∀ indent s, f (Selection.reread read indent s) = f s) (indent : Nat) :
    ∀ ss : List Selection,
      (walkAll (rereadAll read indent ss)).filterMap f = (walkAll ss).filterMap f
  | [] => rfl
  | s :: ss => by
    rw [rereadAll, walkAll, walkAll, List.filterMap_append, List.filterMap_append,
      s.walk_reread hf indent, walkAll_reread hf indent ss]

end

theorem Definition.selections_sketch (x : Definition) :
    x.sketch.selections = rereadAll verbatimly 2 x.selections := by
  cases x <;> rfl

theorem Definition.spreads_sketch (x : Definition) :
    spreads x.sketch.selections = spreads x.selections := by
  have hname : ∀ indent s, (Selection.reread verbatimly indent s).spreadName? = s.spreadName? := by
    intro indent s
    cases s <;> rfl
  rw [spreads, spreads, selections_sketch, walkAll_reread hname]

theorem Definition.conditions_sketch (x : Definition) : x.sketch.conditions = x.conditions := by
  have hcondition : ∀ indent s,
      (Selection.reread verbatimly indent s).condition? = s.condition? := by
    intro indent s
    cases s <;> rfl
  unfold conditions
  rw [selections_sketch, walkAll_reread hcondition]
  cases x <;> rfl

/-- The print of a definition tells what it asks for, if the grammar gives such definitions. -/
theorem printTells_of_formed {xs : List Definition} (h : ∀ x ∈ xs, x.Formed room) :
    PrintTells xs := by
  intro x hx y hy hprint
  have hsketch := Definition.sketch_of_print (h x hx) (h y hy) hprint
  rw [← x.spreads_sketch, ← y.spreads_sketch, ← x.conditions_sketch, ← y.conditions_sketch, hsketch]
  exact ⟨List.Subset.refl _, List.Subset.refl _⟩

end Composables.Graphql
