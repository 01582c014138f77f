import Composables.Graphql.Tree
import Composables.Proofs.Graphql.BlockString
import Composables.Proofs.Graphql.Retake
import Composables.Proofs.Graphql.StringLiteral

/-
  Which literals survive being printed and read. A definition keeps its JSON encoding exactly if all
  its literals do (`Definition.kept_iff`).
-/

namespace Composables.Graphql

open Decimal (Binary64)

/-! ## Literals -/

namespace BlockString

instance (cs : List Char) : Decidable (Kept cs) :=
  decidable_of_iff
    ((∀ l ∈ (Text.split '\n' cs).head?, isBlankLine l = false) ∧
      (∀ l ∈ (Text.split '\n' cs).getLast?, isBlankLine l = false) ∧
      (∀ l ∈ Text.split '\n' cs, isBlankLine l → l = []) ∧
      (∀ l ∈ Text.split '\n' cs, l.getLast? ≠ some '\r') ∧
      ∃ l ∈ Text.split '\n' cs, isBlankLine l = false ∧ indentOf l = 0)
    ⟨fun ⟨first, last, blank, returns, indent⟩ => ⟨first, last, blank, returns, indent⟩,
      fun h => ⟨h.first, h.last, h.blank, h.returns, h.indent⟩⟩

end BlockString

/-- Whether a literal comes back as it was when it is printed and read: a float needs a fraction,
and a string what its layout keeps. -/
def Value.Kept : Value → Prop
  | .float x => x.HasFraction
  | .string s =>
    if BlockString.fits s.toList then BlockString.Kept s.toList
    else ∀ c ∈ s.toList, StringLiteral.IsKept c
  | _ => True

instance : (v : Value) → Decidable v.Kept
  | .float x => inferInstanceAs (Decidable x.HasFraction)
  | .string s => inferInstanceAs (Decidable (
      if BlockString.fits s.toList then BlockString.Kept s.toList
      else ∀ c ∈ s.toList, StringLiteral.IsKept c))
  | .variable _ => isTrue trivial
  | .int _ => isTrue trivial
  | .boolean _ => isTrue trivial
  | .null => isTrue trivial
  | .enum _ => isTrue trivial
  | .list _ => isTrue trivial
  | .object _ => isTrue trivial

/-- Whether a literal is read, as a value of the same encoding. -/
def Reading.Keeps (read : Reading) (indent : Nat) (literal : Value) : Prop :=
  read indent literal ≠ none ∧ (rereadLiteral read indent literal).toJson = literal.toJson

theorem keeps_int (indent : Nat) {n : Int} (h : Fits n) :
    Reader.strict.reading.Keeps indent (.int n) := by
  have hread : Reader.strict.reading indent (.int n) = some (.int n) := Token.ofNumeral?_int h
  exact ⟨by rw [hread]; simp, by rw [rereadLiteral_eq hread rfl]⟩

theorem kindNode_injective {kind kind' : String} {fields fields' : List (String × Json)} :
    kindNode kind fields = kindNode kind' fields' ↔ kind = kind' ∧ fields = fields' := by
  simp [kindNode]

/-- Only floats are encoded as floats are. -/
theorem eq_float_of_toJson {v : Value} {x : Binary64} (h : v.toJson = (Value.float x).toJson) :
    ∃ y, v = .float y := by
  cases v with
  | float y => exact ⟨y, rfl⟩
  | _ => simp [Value.toJson, kindNode] at h

theorem toJson_string_injective {s s' : String}
    (h : (Value.string s).toJson = (Value.string s').toJson) : s = s' := by
  simpa [Value.toJson, kindNode] using h

theorem eq_float_of_value? {t : Token} {x : Binary64} (h : t.value? = some (.float x)) :
    t = .float x := by
  cases t with
  | float y => exact congrArg Token.float (Value.float.inj (Option.some.inj h))
  | name s =>
      have hname : Grammar.ofName s = .float x := Option.some.inj h
      unfold Grammar.ofName at hname
      split at hname <;> cases hname
  | _ => cases h

theorem keeps_float_iff (indent : Nat) {x : Binary64} (h : x.Normal) :
    Reader.strict.reading.Keeps indent (.float x) ↔ x.HasFraction := by
  constructor
  · rintro ⟨hne, hjson⟩
    obtain ⟨y, hy⟩ := eq_float_of_toJson hjson
    obtain ⟨t, ht⟩ := Option.ne_none_iff_exists'.mp hne
    obtain ⟨v, hv⟩ := Option.isSome_iff_exists.mp (strict_atomic indent _ t ht)
    rw [rereadLiteral_eq ht hv] at hy
    obtain rfl := eq_float_of_value? (hy ▸ hv)
    by_contra hfraction
    have hread : Reader.strict.reading indent (.float x) =
        if x = .infinite false then some (.name "inf")
        else Token.ofNumeral? (printedFloat.render x).toList := rfl
    rw [hread] at ht
    split at ht
    · cases ht
    · exact Token.ofNumeral?_of_not_hasFraction h hfraction ht
  · intro hfraction
    have hfinite : x ≠ .infinite false := by
      rintro rfl
      exact hfraction
    have hread : Reader.strict.reading indent (.float x) = some (.float x) :=
      (if_neg hfinite).trans (Token.ofNumeral?_fraction h hfraction)
    exact ⟨by rw [hread]; simp, by rw [rereadLiteral_eq hread rfl]⟩

theorem keeps_string_iff (indent : Nat) (s : String) :
    Reader.strict.reading.Keeps indent (.string s) ↔ (Value.string s).Kept := by
  have hread : Reader.strict.reading indent (.string s) =
      if BlockString.fits s.toList then
        some (.string (String.ofList (BlockString.decode (BlockString.inner indent s.toList))))
      else Token.ofQuoted? (StringLiteral.encode s.toList) := rfl
  rw [Value.Kept]
  by_cases hfits : BlockString.fits s.toList
  · rw [if_pos hfits] at hread ⊢
    have hfeed : '\n' ∈ s.toList := by
      rw [BlockString.fits, Bool.and_eq_true] at hfits
      simpa using hfits.1
    rw [Reading.Keeps, rereadLiteral_eq hread rfl, ← BlockString.decode_inner_iff hfeed indent]
    constructor
    · rintro ⟨_, hjson⟩
      exact String.ofList_injective
        ((toJson_string_injective hjson).trans String.ofList_toList.symm)
    · intro hdecode
      rw [hread, hdecode, String.ofList_toList]
      simp
  · rw [if_neg hfits] at hread ⊢
    rw [← StringLiteral.decode?_encode_iff]
    constructor
    · rintro ⟨hne, hjson⟩
      obtain ⟨t, ht⟩ := Option.ne_none_iff_exists'.mp hne
      obtain ⟨cs, hcs, rfl⟩ := Option.map_eq_some_iff.mp (hread.symm.trans ht)
      rw [rereadLiteral_eq ht rfl] at hjson
      rw [hcs, ← toJson_string_injective hjson, String.toList_ofList]
    · intro hdecode
      rw [Token.ofQuoted?, hdecode, Option.map_some, String.ofList_toList] at hread
      exact ⟨by rw [hread]; simp, by rw [rereadLiteral_eq hread rfl]⟩

/-! ## Values -/

theorem listField_injective {name : String} {items items' : List Json} :
    listField name items = listField name items' ↔ items = items' := by
  unfold listField
  cases items <;> cases items' <;> simp

/-- How printed literals are read. -/
abbrev strictly : Reading := Reader.strict.reading

theorem keeps_literal_iff {read : Reading} (indent : Nat) (literal : Value) :
    ((AllRead [read indent literal] ∧ (rereadLiteral read indent literal).toJson = literal.toJson) ↔
      ∀ l ∈ [literal], l.Kept) ↔ (read.Keeps indent literal ↔ literal.Kept) := by
  rw [List.forall_mem_singleton, allRead_cons, Reading.Keeps]
  simp only [allRead_nil, and_true]

mutual

/-- A value is read, as one of the same encoding, if its literals are kept. -/
theorem Value.kept_iff (indent : Nat) {constant : Bool} :
    ∀ {v : Value} {room : Nat}, v.Formed constant room →
      ((AllRead (v.tokens strictly indent) ∧ (v.reread strictly indent).toJson = v.toJson) ↔
        ∀ l ∈ v.literals, l.Kept)
  | .int n, _, h => (keeps_literal_iff indent _).mpr (iff_of_true (keeps_int indent h) trivial)
  | .float x, _, h => (keeps_literal_iff indent _).mpr (keeps_float_iff indent h)
  | .string s, _, _ => (keeps_literal_iff indent _).mpr (keeps_string_iff indent s)
  | .variable _, _, _ => by simp [Value.tokens, Value.literals, Value.reread, AllRead]
  | .boolean _, _, _ => by simp [Value.tokens, Value.literals, Value.reread, AllRead]
  | .null, _, _ => by simp [Value.tokens, Value.literals, Value.reread, AllRead]
  | .enum _, _, _ => by simp [Value.tokens, Value.literals, Value.reread, AllRead]
  | .list items, _, h => by
    obtain ⟨inner, _, hitems⟩ := h
    rw [Value.literals, ← items_kept_iff indent hitems]
    simp [Value.tokens, Value.reread, Value.toJson, kindNode_injective, allRead_cons,
      allRead_append, allRead_nil]
  | .object fields, _, h => by
    obtain ⟨inner, _, _, hfields⟩ := h
    rw [Value.literals, ← fields_kept_iff "ObjectField" indent hfields]
    simp [Value.tokens, Value.reread, Value.toJson, kindNode_injective, allRead_cons,
      allRead_append, allRead_nil]

theorem items_kept_iff (indent : Nat) {constant : Bool} :
    ∀ {vs : List Value} {room : Nat}, FormedItems constant vs room →
      ((AllRead (itemTokens strictly indent vs) ∧
        valueNodes (rereadItems strictly indent vs) = valueNodes vs) ↔
          ∀ l ∈ itemLiterals vs, l.Kept)
  | [], _, _ => by simp [itemTokens, itemLiterals, rereadItems, allRead_nil]
  | v :: vs, _, h => by
    rw [itemLiterals, List.forall_mem_append, ← Value.kept_iff indent h.1,
      ← items_kept_iff indent h.2, itemTokens, allRead_append, rereadItems, valueNodes, valueNodes,
      List.cons_eq_cons]
    tauto

theorem fields_kept_iff (kind : String) (indent : Nat) {constant : Bool} :
    ∀ {fields : List (String × Value)} {room : Nat}, FormedFields constant fields room →
      ((AllRead (fieldTokens strictly indent fields) ∧
        labelledNodes kind (rereadFields strictly indent fields) = labelledNodes kind fields) ↔
          ∀ l ∈ fieldLiterals fields, l.Kept)
  | [], _, _ => by simp [fieldTokens, fieldLiterals, rereadFields, allRead_nil]
  | (k, v) :: fields, _, h => by
    rw [fieldLiterals, List.forall_mem_append, ← Value.kept_iff indent h.1.2,
      ← fields_kept_iff kind indent h.2, fieldTokens, rereadFields, labelledNodes, labelledNodes,
      List.cons_eq_cons, kindNode_injective]
    simp [allRead_cons, allRead_append]
    tauto

end

/-! ## Arguments and directives -/

theorem listField_append_injective {name : String} {xs ys : List Json}
    {fs gs : List (String × Json)} (h : xs.length = ys.length) :
    listField name xs ++ fs = listField name ys ++ gs ↔
      listField name xs = listField name ys ∧ fs = gs := by
  refine ⟨fun heq => List.append_inj heq ?_, fun ⟨hxs, hfs⟩ => by rw [hxs, hfs]⟩
  unfold listField
  cases xs <;> cases ys <;> simp_all

theorem length_labelledNodes (kind : String) (fields : List (String × Value)) :
    (labelledNodes kind fields).length = fields.length := by
  induction fields with
  | nil => rfl
  | cons f fields ih => rw [labelledNodes, List.length_cons, List.length_cons, ih]

theorem length_rereadFields (read : Reading) (indent : Nat) (fields : List (String × Value)) :
    (rereadFields read indent fields).length = fields.length := by
  rw [Grammar.rereadFields_eq, List.length_map]

theorem arguments_kept_iff (indent : Nat) {arguments : Arguments} {room : Nat}
    (h : FormedArguments arguments room) :
    (AllRead (argumentTokens strictly indent arguments) ∧
      argumentsField (rereadFields strictly indent arguments) = argumentsField arguments) ↔
      ∀ l ∈ fieldLiterals arguments, l.Kept := by
  unfold argumentTokens argumentsField
  rw [listField_injective]
  split
  · rename_i hempty
    subst hempty
    simp [fieldLiterals, rereadFields, allRead_nil]
  · rename_i hempty
    obtain ⟨inner, _, hfields⟩ := h.resolve_left hempty
    rw [← fields_kept_iff "Argument" indent hfields]
    simp [allRead_cons, allRead_append, allRead_nil]

theorem argumentsField_append (indent : Nat) {arguments : Arguments}
    {fs gs : List (String × Json)} :
    argumentsField (rereadFields strictly indent arguments) ++ fs = argumentsField arguments ++ gs ↔
      argumentsField (rereadFields strictly indent arguments) = argumentsField arguments ∧
        fs = gs :=
  listField_append_injective
    (by rw [length_labelledNodes, length_labelledNodes, length_rereadFields])

theorem directivesField_append (indent : Nat) {ds : List Directive} {fs gs : List (String × Json)} :
    directivesField (ds.map (Directive.reread strictly indent)) ++ fs = directivesField ds ++ gs ↔
      directivesField (ds.map (Directive.reread strictly indent)) = directivesField ds ∧ fs = gs :=
  listField_append_injective (by rw [List.length_map, List.length_map, List.length_map])

theorem Directive.kept_iff (indent : Nat) {d : Directive} {room : Nat} (h : d.Formed room) :
    (AllRead (d.tokens strictly indent) ∧ (d.reread strictly indent).toJson = d.toJson) ↔
      ∀ l ∈ d.literals, l.Kept := by
  rw [literals, ← arguments_kept_iff indent h.arguments]
  simp [tokens, reread, toJson, kindNode_injective, allRead_cons]

theorem directives_kept_iff (indent : Nat) {ds : List Directive} {room : Nat}
    (h : ∀ d ∈ ds, d.Formed room) :
    (AllRead (directiveTokens strictly indent ds) ∧
      directivesField (ds.map (Directive.reread strictly indent)) = directivesField ds) ↔
      ∀ l ∈ ds.flatMap Directive.literals, l.Kept := by
  unfold directiveTokens directivesField
  rw [listField_injective]
  induction ds with
  | nil => simp [allRead_nil]
  | cons d ds ih =>
      rw [List.forall_mem_cons] at h
      rw [List.flatMap_cons, List.flatMap_cons, List.forall_mem_append,
        ← Directive.kept_iff indent h.1, ← ih h.2, allRead_append, List.map_cons, List.map_cons,
        List.map_cons, List.cons_eq_cons]
      tauto

/-! ## Selections -/

theorem set_kept_iff (indent : Nat) (ss : List Selection) :
    (AllRead (setTokens strictly indent ss) ∧
      setNode (rereadAll strictly (indent + 2) ss) = setNode ss) ↔
      AllRead (selectionTokens strictly (indent + 2) ss) ∧
        selectionNodes (rereadAll strictly (indent + 2) ss) = selectionNodes ss := by
  simp [setTokens, setNode, kindNode_injective, listField_injective, allRead_cons, allRead_append,
    allRead_nil]

mutual

theorem Selection.kept_iff (indent : Nat) : ∀ {s : Selection} {room : Nat}, s.Formed room →
    ((AllRead (s.tokens strictly indent) ∧ (s.reread strictly indent).toJson = s.toJson) ↔
      ∀ l ∈ s.literals, l.Kept)
  | .field position alias? name arguments directives selections, _, h => by
    obtain ⟨_, _, harguments, hdirectives, hselections⟩ := h
    have hblock : (AllRead (
          if selections.isEmpty then [] else setTokens strictly indent selections) ∧
        (if (rereadAll strictly (indent + 2) selections).isEmpty then []
          else [("selectionSet", setNode (rereadAll strictly (indent + 2) selections))]) =
          if selections.isEmpty then [] else [("selectionSet", setNode selections)]) ↔
        ∀ l ∈ selectionLiterals selections, l.Kept := by
      rcases hselections with rfl | ⟨inner, _, hne, hall⟩
      · simp [rereadAll, selectionLiterals, allRead_nil]
      · have hempty : selections.isEmpty = false := List.isEmpty_eq_false_iff.mpr hne
        have hempty' : (rereadAll strictly (indent + 2) selections).isEmpty = false := by
          rw [Grammar.rereadAll_eq, List.isEmpty_map, hempty]
        rw [hempty, hempty', ← selections_kept_iff (indent + 2) hall,
          ← set_kept_iff indent selections]
        simp
    have hlabel := allRead_label alias? name
    have htokens : AllRead (Selection.tokens strictly indent
          (.field position alias? name arguments directives selections)) ↔
        AllRead (labelTokens alias? name ++ argumentTokens strictly indent arguments ++
          directiveTokens strictly indent directives ++
          if selections.isEmpty then [] else setTokens strictly indent selections) := Iff.rfl
    rw [Selection.literals, List.forall_mem_append, List.forall_mem_append,
      ← arguments_kept_iff indent harguments, ← directives_kept_iff indent hdirectives, ← hblock,
      htokens, allRead_append, allRead_append, allRead_append, Selection.reread, Selection.toJson,
      Selection.toJson, kindNode_injective, List.append_assoc, List.append_assoc, List.append_assoc,
      List.append_assoc, List.append_assoc, List.append_assoc, List.append_cancel_left_eq,
      List.append_cancel_left_eq, argumentsField_append, directivesField_append]
    tauto
  | .spread _ name directives, _, h => by
    rw [Selection.literals, ← directives_kept_iff indent h.2.2]
    simp [Selection.tokens, Selection.reread, Selection.toJson, kindNode_injective, allRead_cons]
  | .inline position condition? directives selections, _, h => by
    obtain ⟨_, hdirectives, inner, _, _, hall⟩ := h
    have hcondition := allRead_condition condition?
    have htokens : AllRead (Selection.tokens strictly indent
          (.inline position condition? directives selections)) ↔
        AllRead (some .spread ::
          (conditionTokens condition? ++ directiveTokens strictly indent directives ++
            setTokens strictly indent selections)) := Iff.rfl
    rw [Selection.literals, List.forall_mem_append, ← directives_kept_iff indent hdirectives,
      ← selections_kept_iff (indent + 2) hall, ← set_kept_iff indent selections, htokens,
      allRead_cons, allRead_append, allRead_append, Selection.reread, Selection.toJson,
      Selection.toJson, kindNode_injective, List.append_assoc, List.append_assoc,
      List.append_cancel_left_eq, directivesField_append, List.cons_eq_cons]
    simp
    tauto

theorem selections_kept_iff (indent : Nat) :
    ∀ {ss : List Selection} {room : Nat}, FormedAll ss room →
      ((AllRead (selectionTokens strictly indent ss) ∧
        selectionNodes (rereadAll strictly indent ss) = selectionNodes ss) ↔
          ∀ l ∈ selectionLiterals ss, l.Kept)
  | [], _, _ => by simp [selectionTokens, rereadAll, selectionLiterals, allRead_nil]
  | s :: ss, _, h => by
    rw [selectionLiterals, List.forall_mem_append, ← Selection.kept_iff indent h.1,
      ← selections_kept_iff indent h.2, selectionTokens, allRead_append, rereadAll, selectionNodes,
      selectionNodes, List.cons_eq_cons]
    tauto

end

/-! ## Definitions -/

theorem VariableDefinition.kept_iff {v : VariableDefinition} {room : Nat} (h : v.Formed room) :
    (AllRead (v.tokens strictly) ∧ (v.reread strictly).toJson = v.toJson) ↔
      ∀ l ∈ v.literals, l.Kept := by
  have hdefault := h.default?
  obtain ⟨name, type, default?⟩ := v
  cases default? with
  | none =>
      simp [tokens, reread, literals, toJson, allRead_cons, allRead_type]
  | some d =>
      have hd := Value.kept_iff 0 (hdefault d rfl)
      simp only [literals, Option.toList_some, List.flatMap_singleton]
      rw [← hd]
      simp [tokens, reread, toJson, kindNode_injective, optionField, allRead_cons, allRead_append,
        allRead_type]

theorem variableList_kept_iff {vs : List VariableDefinition} {room : Nat}
    (h : ∀ v ∈ vs, v.Formed room) :
    (AllRead (vs.flatMap (VariableDefinition.tokens strictly)) ∧
      (vs.map (VariableDefinition.reread strictly)).map VariableDefinition.toJson =
        vs.map VariableDefinition.toJson) ↔
      ∀ l ∈ vs.flatMap VariableDefinition.literals, l.Kept := by
  induction vs with
  | nil => simp [allRead_nil]
  | cons v vs ih =>
      rw [List.forall_mem_cons] at h
      rw [List.flatMap_cons, List.flatMap_cons, List.forall_mem_append,
        ← VariableDefinition.kept_iff h.1, ← ih h.2, allRead_append, List.map_cons, List.map_cons,
        List.map_cons, List.cons_eq_cons]
      tauto

theorem variables_kept_iff {vs : List VariableDefinition} {room : Nat}
    (h : ∀ v ∈ vs, v.Formed room) :
    (AllRead (variableTokens strictly vs) ∧
      listField "variableDefinitions"
        ((vs.map (VariableDefinition.reread strictly)).map VariableDefinition.toJson) =
        listField "variableDefinitions" (vs.map VariableDefinition.toJson)) ↔
      ∀ l ∈ vs.flatMap VariableDefinition.literals, l.Kept := by
  have htokens : AllRead (variableTokens strictly vs) ↔
      AllRead (vs.flatMap (VariableDefinition.tokens strictly)) := by
    unfold variableTokens
    split
    · rename_i hempty
      rw [hempty, List.flatMap_nil]
    · simp [allRead_cons, allRead_append, allRead_nil]
  rw [listField_injective, htokens]
  exact variableList_kept_iff h

theorem FragmentDefinition.kept_iff {d : FragmentDefinition} {room : Nat} (h : d.Formed room) :
    (AllRead (d.tokens strictly) ∧ (d.reread strictly).toJson = d.toJson) ↔
      ∀ l ∈ d.literals, l.Kept := by
  obtain ⟨inner, _, _, hall⟩ := h.selections
  rw [literals, List.forall_mem_append, ← directives_kept_iff 0 h.directives,
    ← selections_kept_iff 2 hall, ← set_kept_iff 0 d.selections, toJson, toJson, kindNode_injective,
    List.append_assoc, List.append_assoc, reread, List.append_cancel_left_eq,
    directivesField_append, List.cons_eq_cons, tokens, allRead_cons, allRead_cons, allRead_cons,
    allRead_cons, allRead_append]
  simp
  tauto

theorem OperationDefinition.kept_iff {d : OperationDefinition} {room : Nat} (h : d.Formed room)
    (hshown : d.shown = d.variableDefinitions) :
    (AllRead (d.tokens strictly) ∧ (d.reread strictly).toJson = d.toJson) ↔
      ∀ l ∈ d.literals, l.Kept := by
  obtain ⟨inner, _, _, hall⟩ := h.selections
  have hvariables : ∃ room, ∀ v ∈ d.variableDefinitions, v.Formed room := by
    rcases h.variableDefinitions with hempty | ⟨inner, _, hvs⟩
    · exact ⟨0, by simp [hempty]⟩
    · exact ⟨inner, hvs⟩
  obtain ⟨room', hvs⟩ := hvariables
  have hname : AllRead (d.name?.toList.map (some ∘ Token.name)) := by
    cases d.name? <;> simp [AllRead]
  have hfields : ∀ {fs gs : List (String × Json)},
      listField "variableDefinitions"
        ((d.variableDefinitions.map (VariableDefinition.reread strictly)).map
          VariableDefinition.toJson) ++ fs =
          listField "variableDefinitions" (d.variableDefinitions.map VariableDefinition.toJson) ++
            gs ↔ _ :=
    listField_append_injective (by rw [List.length_map, List.length_map, List.length_map])
  rw [literals, List.forall_mem_append, List.forall_mem_append, ← variables_kept_iff hvs,
    ← directives_kept_iff 0 h.directives, ← selections_kept_iff 2 hall,
    ← set_kept_iff 0 d.selections, toJson, toJson, operationNode, operationNode, kindNode_injective,
    reread, hshown, tokens, hshown]
  simp only [List.append_assoc, List.append_cancel_left_eq, hfields, directivesField_append,
    allRead_cons, allRead_append, List.cons_eq_cons]
  simp
  tauto

/-- A definition is read from its print, as one of the same encoding, if its literals are kept. -/
theorem Definition.kept_iff {x : Definition} {room : Nat} (h : x.Formed room)
    (hshown : ∀ d, x = .operation d → d.shown = d.variableDefinitions) :
    (AllRead (x.tokens strictly) ∧ (x.reread strictly).toJson = x.toJson) ↔
      ∀ l ∈ x.literals, l.Kept := by
  cases x with
  | shorthand position selections =>
      obtain ⟨inner, _, _, hall⟩ := h
      rw [literals, ← selections_kept_iff 2 hall, ← set_kept_iff 0 selections]
      simp [tokens, reread, toJson, operationNode, kindNode_injective]
  | operation d => exact d.kept_iff h (hshown d rfl)
  | fragment d => exact d.kept_iff h

end Composables.Graphql
