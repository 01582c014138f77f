import Composables.Proofs.Graphql.Sketch

/-
  The print of a definition, from its sketch. In a sketch literals are strings that say how they are
  written, so that it has one print; definitions have one print exactly if they have one sketch
  (`Definition.print_eq_iff`).
-/

namespace Composables.Graphql

open Grammar (rereadFields_eq rereadAll_eq)

/-! ## Values -/

mutual

/-- A value of a sketch, as it is written. -/
def Value.spell : Value → String
  | .string s => s
  | .list items => "[" ++ ", ".intercalate (spellItems items) ++ "]"
  | .object fields => "\x7b" ++ ", ".intercalate (spellFields fields) ++ "\x7d"
  | v => v.print 0

def spellItems : List Value → List String
  | [] => []
  | v :: vs => v.spell :: spellItems vs

def spellFields : List (String × Value) → List String
  | [] => []
  | (k, v) :: fields => (k ++ ": " ++ v.spell) :: spellFields fields

end

theorem spell_int (indent : Nat) (n : Int) :
    (rereadLiteral verbatimly indent (.int n)).spell = Value.print indent (.int n) := by
  rw [rereadLiteral_eq rfl rfl]
  exact String.ofList_toList

theorem spell_float (indent : Nat) (x : Decimal.Binary64) :
    (rereadLiteral verbatimly indent (.float x)).spell = Value.print indent (.float x) := by
  by_cases hx : x = .infinite false
  · subst hx
    rfl
  · have hread : verbatimly indent (.float x) = Reader.verbatim.number
        (printedFloat.render x).toList := if_neg hx
    rw [rereadLiteral_eq hread rfl]
    exact String.ofList_toList

theorem spell_string (indent : Nat) (s : String) :
    (rereadLiteral verbatimly indent (.string s)).spell = Value.print indent (.string s) := by
  show _ = if BlockString.fits s.toList then _ else _
  by_cases hfits : BlockString.fits s.toList
  · have hread : verbatimly indent (.string s) =
        Reader.verbatim.block (BlockString.inner indent s.toList) := if_pos hfits
    rw [rereadLiteral_eq hread rfl, if_pos hfits, BlockString.encode_eq, ← List.append_assoc]
    rfl
  · have hread : verbatimly indent (.string s) =
        Reader.verbatim.quoted (StringLiteral.encode s.toList) := if_neg hfits
    rw [rereadLiteral_eq hread rfl, if_neg hfits]
    refine String.toList_injective ?_
    simp [Value.spell]

mutual

theorem Value.spell_reread (indent : Nat) :
    ∀ v : Value, (v.reread verbatimly indent).spell = v.print indent
  | .int n => spell_int indent n
  | .float x => spell_float indent x
  | .string s => spell_string indent s
  | .variable _ => rfl
  | .boolean _ => rfl
  | .null => rfl
  | .enum _ => rfl
  | .list items => by
    rw [Value.reread, Value.spell, spellItems_reread indent items, Value.print]
  | .object fields => by
    rw [Value.reread, Value.spell, spellFields_reread indent fields, Value.print]

theorem spellItems_reread (indent : Nat) :
    ∀ vs : List Value, spellItems (rereadItems verbatimly indent vs) = printItems indent vs
  | [] => rfl
  | v :: vs => by
    rw [rereadItems, spellItems, v.spell_reread indent, spellItems_reread indent vs, printItems]

theorem spellFields_reread (indent : Nat) : ∀ fields : List (String × Value),
    spellFields (rereadFields verbatimly indent fields) = printFields indent fields
  | [] => rfl
  | (k, v) :: fields => by
    rw [rereadFields, spellFields, v.spell_reread indent, spellFields_reread indent fields,
      printFields]

end

/-! ## Arguments and directives -/

theorem printArguments_of_sketch (indent : Nat) {arguments arguments' : Arguments}
    (h : rereadFields verbatimly indent arguments = rereadFields verbatimly indent arguments') :
    printArguments indent arguments = printArguments indent arguments' := by
  have hempty : arguments.isEmpty = arguments'.isEmpty := by
    have := congrArg List.isEmpty h
    rwa [rereadFields_eq, rereadFields_eq, List.isEmpty_map, List.isEmpty_map] at this
  rw [printArguments, printArguments, hempty, ← spellFields_reread, h, spellFields_reread]

theorem printDirectives_of_sketch (indent : Nat) {ds es : List Directive}
    (h : ds.map (Directive.reread verbatimly indent) =
      es.map (Directive.reread verbatimly indent)) :
    printDirectives indent ds = printDirectives indent es := by
  unfold printDirectives
  congr 1
  induction ds generalizing es with
  | nil =>
      rw [List.map_eq_nil_iff.mp h.symm]
  | cons d ds ih =>
      cases es with
      | nil => cases h
      | cons e es =>
          obtain ⟨hd, hds⟩ := List.cons.inj h
          obtain ⟨hname, harguments⟩ := Directive.mk.inj hd
          rw [List.map_cons, List.map_cons, ih hds, Directive.print, Directive.print, hname,
            printArguments_of_sketch indent harguments]

/-! ## Selections -/

mutual

theorem Selection.print_of_sketch (indent : Nat) : ∀ {s t : Selection},
    s.reread verbatimly indent = t.reread verbatimly indent → s.print indent = t.print indent
  | .field _ alias? name arguments ds ss, t, h => by
    cases t with
    | field _ alias?' name' arguments' ds' ss' =>
        rw [Selection.reread, Selection.reread] at h
        obtain ⟨_, rfl, rfl, harguments, hds, hss⟩ := Selection.field.inj h
        have hempty : ss.isEmpty = ss'.isEmpty := by
          have := congrArg List.isEmpty hss
          rwa [rereadAll_eq, rereadAll_eq, List.isEmpty_map, List.isEmpty_map] at this
        cases alias? <;>
          rw [Selection.print, Selection.print, printArguments_of_sketch indent harguments,
            printDirectives_of_sketch indent hds, hempty, printSet, printSet,
            printSelections_of_sketch (indent + 2) hss]
    | spread => cases h
    | inline => cases h
  | .spread _ name ds, t, h => by
    cases t with
    | field => cases h
    | spread _ name' ds' =>
        rw [Selection.reread, Selection.reread] at h
        obtain ⟨_, rfl, hds⟩ := Selection.spread.inj h
        rw [Selection.print, Selection.print, printDirectives_of_sketch indent hds]
    | inline => cases h
  | .inline _ condition? ds ss, t, h => by
    cases t with
    | field => cases h
    | spread => cases h
    | inline _ condition?' ds' ss' =>
        rw [Selection.reread, Selection.reread] at h
        obtain ⟨_, rfl, hds, hss⟩ := Selection.inline.inj h
        rw [Selection.print, Selection.print, printDirectives_of_sketch indent hds, printSet,
          printSet, printSelections_of_sketch (indent + 2) hss]

theorem printSelections_of_sketch (indent : Nat) : ∀ {ss ts : List Selection},
    rereadAll verbatimly indent ss = rereadAll verbatimly indent ts →
      printSelections indent ss = printSelections indent ts
  | [], ts, h => by
    cases ts with
    | nil => rfl
    | cons t ts => cases h
  | s :: ss, ts, h => by
    cases ts with
    | nil => cases h
    | cons t ts =>
        rw [rereadAll, rereadAll] at h
        obtain ⟨hs, hss⟩ := List.cons.inj h
        rw [printSelections, printSelections, Selection.print_of_sketch indent hs,
          printSelections_of_sketch indent hss]

end

/-! ## Definitions -/

theorem printSet_of_sketch {ss ts : List Selection}
    (h : rereadAll verbatimly 2 ss = rereadAll verbatimly 2 ts) :
    printSet 0 ss = printSet 0 ts := by
  rw [printSet, printSet, printSelections_of_sketch 2 h]

theorem VariableDefinition.print_of_sketch {v w : VariableDefinition}
    (h : v.reread verbatimly = w.reread verbatimly) : v.print = w.print := by
  obtain ⟨hname, htype, hdefault⟩ := VariableDefinition.mk.inj h
  have hvalue : v.default?.map (Value.print 0) = w.default?.map (Value.print 0) := by
    have hspell := congrArg (Option.map Value.spell) hdefault
    rw [Option.map_map, Option.map_map] at hspell
    rwa [show Value.spell ∘ Value.reread verbatimly 0 = Value.print 0 from
      funext (Value.spell_reread 0)] at hspell
  unfold print
  cases hv : v.default? <;> cases hw : w.default? <;> simp_all

theorem OperationDefinition.printVariables_eq (d : OperationDefinition) :
    d.printVariables = if d.shown.isEmpty then "" else
      "(" ++ (if d.kind = .subscription then "" else ", ").intercalate
        (d.shown.map VariableDefinition.print) ++ ")" := by
  unfold printVariables shown
  by_cases hhidden : d.kind = .subscription ∧ d.name? = none
  · simp [hhidden]
  · have hcond : (d.kind == .subscription && d.name?.isNone) = false := by
      simpa [Bool.and_eq_false_iff, Option.isSome_iff_ne_none, imp_iff_not_or] using hhidden
    rw [hcond, Bool.or_false, if_neg hhidden]

theorem map_print_of_sketch {vs ws : List VariableDefinition}
    (h : vs.map (VariableDefinition.reread verbatimly) =
      ws.map (VariableDefinition.reread verbatimly)) :
    vs.map VariableDefinition.print = ws.map VariableDefinition.print := by
  induction vs generalizing ws with
  | nil => rw [List.map_eq_nil_iff.mp h.symm]
  | cons v vs ih =>
      cases ws with
      | nil => cases h
      | cons w ws =>
          obtain ⟨hv, hvs⟩ := List.cons.inj h
          rw [List.map_cons, List.map_cons, VariableDefinition.print_of_sketch hv, ih hvs]

theorem Definition.print_of_sketch {x y : Definition} (h : x.sketch = y.sketch) :
    x.print = y.print := by
  cases x with
  | shorthand position ss =>
      cases y with
      | shorthand position' ss' => exact printSet_of_sketch (Definition.shorthand.inj h).2
      | operation => cases h
      | fragment => cases h
  | operation d =>
      cases y with
      | shorthand => cases h
      | operation e =>
          obtain ⟨_, hkind, hname, hvariables, hds, hss⟩ :=
            OperationDefinition.mk.inj (Definition.operation.inj h)
          have hempty := congrArg List.isEmpty hvariables
          rw [List.isEmpty_map, List.isEmpty_map] at hempty
          simp only [print, OperationDefinition.print, OperationDefinition.printVariables_eq, hkind,
            hname, hempty, map_print_of_sketch hvariables, printDirectives_of_sketch 0 hds,
            printSet_of_sketch hss]
      | fragment => cases h
  | fragment d =>
      cases y with
      | shorthand => cases h
      | operation => cases h
      | fragment e =>
          obtain ⟨_, hname, hcondition, hds, hss⟩ :=
            FragmentDefinition.mk.inj (Definition.fragment.inj h)
          rw [print, print, FragmentDefinition.print, FragmentDefinition.print, hname, hcondition,
            printDirectives_of_sketch 0 hds, printSet_of_sketch hss]

/-- A print tells a definition but for its positions and for what its literals stand for. -/
theorem Definition.print_eq_iff {x y : Definition} {room : Nat} (hx : x.Formed room)
    (hy : y.Formed room) : x.print = y.print ↔ x.sketch = y.sketch :=
  ⟨sketch_of_print hx hy, print_of_sketch⟩

end Composables.Graphql
