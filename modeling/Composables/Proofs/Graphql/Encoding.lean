import Mathlib
import Composables.Proofs.Decimal.Rendered
import Composables.Proofs.Graphql.ReadBack
import Composables.Proofs.Graphql.Unplaced

/-
  What the JSON tree of a definition tells. Trees leave out positions, and members that have nothing
  to say. From what follows it can be told whether a member is left out (`optionField_append_iff`),
  and a float can be read back from its text, so that nothing is lost but the positions
  (`Definition.toJson_faithful`).
-/

namespace Composables.Graphql

/-! ## Members that may be left out -/

/-- Whether no member has the name. -/
def Lacks (name : String) (fields : List (String × Json)) : Prop := ∀ f ∈ fields, f.1 ≠ name

section Lacks

variable {name : String} {fs gs : List (String × Json)}

@[simp]
theorem lacks_nil : Lacks name [] := nofun

@[simp]
theorem lacks_cons {f : String × Json} : Lacks name (f :: fs) ↔ f.1 ≠ name ∧ Lacks name fs :=
  List.forall_mem_cons

@[simp]
theorem lacks_append : Lacks name (fs ++ gs) ↔ Lacks name fs ∧ Lacks name gs :=
  List.forall_mem_append

@[simp]
theorem lacks_optionField {other : String} (h : other ≠ name) (node : Option Json) :
    Lacks name (optionField other node) := by
  cases node <;> simp [optionField, h]

@[simp]
theorem lacks_listField {other : String} (h : other ≠ name) (items : List Json) :
    Lacks name (listField other items) := by
  unfold listField
  split <;> simp [h]

/-- In front of other members it can be told whether a member is left out. -/
theorem optionField_append_iff {a b : Option Json} (hf : Lacks name fs) (hg : Lacks name gs) :
    optionField name a ++ fs = optionField name b ++ gs ↔ a = b ∧ fs = gs := by
  cases a with
  | none =>
      cases b with
      | none => simp [optionField]
      | some b =>
          have hne : fs ≠ (name, b) :: gs := by
            rintro rfl
            exact hf _ List.mem_cons_self rfl
          simp [optionField, hne]
  | some a =>
      cases b with
      | none =>
          have hne : (name, a) :: fs ≠ gs := by
            rintro rfl
            exact hg _ List.mem_cons_self rfl
          simp [optionField, hne]
      | some b => simp [optionField]

theorem listField_append_iff {xs ys : List Json} (hf : Lacks name fs) (hg : Lacks name gs) :
    listField name xs ++ fs = listField name ys ++ gs ↔ xs = ys ∧ fs = gs := by
  have hoption : ∀ items, listField name items =
      optionField name (if items = [] then none else some (.array items)) := by
    intro items
    cases items <;> rfl
  rw [hoption, hoption, optionField_append_iff hf hg]
  cases xs <;> cases ys <;> simp

end Lacks

/-! ## Values -/

theorem nameNode_injective : Function.Injective nameNode := by
  intro a b h
  simpa [nameNode, kindNode] using h

theorem TypeRef.toJson_injective : Function.Injective TypeRef.toJson := by
  intro a b h
  induction a generalizing b with
  | named name =>
      cases b with
      | named name' => simpa [toJson, namedTypeNode, kindNode, nameNode] using h
      | _ => simp [toJson, namedTypeNode, kindNode] at h
  | list inner ih =>
      cases b with
      | list inner' => rw [ih (by simpa [toJson, kindNode] using h)]
      | _ => simp [toJson, namedTypeNode, kindNode] at h
  | nonNull inner ih =>
      cases b with
      | nonNull inner' => rw [ih (by simpa [toJson, kindNode] using h)]
      | _ => simp [toJson, namedTypeNode, kindNode] at h

mutual

theorem Value.eq_of_toJson {constant constant' : Bool} : ∀ {v w : Value} {room room' : ℕ},
    v.Formed constant room → w.Formed constant' room' → v.toJson = w.toJson → v = w
  | .variable name, w, _, _, _, _, h => by
    cases w with
    | «variable» name' => simpa [Value.toJson, kindNode, nameNode] using h
    | _ => simp [Value.toJson, kindNode] at h
  | .int n, w, _, _, _, _, h => by
    cases w with
    | int n' =>
        have htext : toString n = toString n' := by
          simpa only [Value.toJson, kindNode_injective, List.cons.injEq, Prod.mk.injEq,
            Json.string.injEq, true_and, and_true] using h
        rw [Decimal.toString_int_injective htext]
    | _ => simp [Value.toJson, kindNode] at h
  | .float x, w, _, _, hx, hw, h => by
    cases w with
    | float y =>
        have hrender : treeFloat.render x = treeFloat.render y := by
          simpa [Value.toJson, kindNode] using h
        rw [treeFloat.render_injOn hx hw hrender]
    | _ => simp [Value.toJson, kindNode] at h
  | .string s, w, _, _, _, _, h => by
    cases w with
    | string s' => rw [toJson_string_injective h]
    | _ => simp [Value.toJson, kindNode] at h
  | .boolean b, w, _, _, _, _, h => by
    cases w with
    | boolean b' => simpa [Value.toJson, kindNode] using h
    | _ => simp [Value.toJson, kindNode] at h
  | .null, w, _, _, _, _, h => by
    cases w with
    | null => rfl
    | _ => simp [Value.toJson, kindNode] at h
  | .enum name, w, _, _, _, _, h => by
    cases w with
    | enum name' => simpa [Value.toJson, kindNode] using h
    | _ => simp [Value.toJson, kindNode] at h
  | .list items, w, _, _, hv, hw, h => by
    cases w with
    | list items' =>
        obtain ⟨_, _, hitems⟩ := hv
        obtain ⟨_, _, hitems'⟩ := hw
        rw [eq_of_valueNodes hitems hitems' (by simpa [Value.toJson, kindNode] using h)]
    | _ => simp [Value.toJson, kindNode] at h
  | .object fields, w, _, _, hv, hw, h => by
    cases w with
    | object fields' =>
        obtain ⟨_, _, _, hfields⟩ := hv
        obtain ⟨_, _, _, hfields'⟩ := hw
        rw [eq_of_labelledNodes hfields hfields' (by simpa [Value.toJson, kindNode] using h)]
    | _ => simp [Value.toJson, kindNode] at h

theorem eq_of_valueNodes {constant constant' : Bool} : ∀ {vs ws : List Value} {room room' : ℕ},
    FormedItems constant vs room → FormedItems constant' ws room' →
      valueNodes vs = valueNodes ws → vs = ws
  | [], ws, _, _, _, _, h => by cases ws <;> simp_all [valueNodes]
  | v :: vs, ws, _, _, hv, hw, h => by
    cases ws with
    | nil => simp [valueNodes] at h
    | cons w ws =>
        rw [valueNodes, valueNodes, List.cons_eq_cons] at h
        rw [Value.eq_of_toJson hv.1 hw.1 h.1, eq_of_valueNodes hv.2 hw.2 h.2]

theorem eq_of_labelledNodes {kind : String} {constant constant' : Bool} :
    ∀ {fs gs : List (String × Value)} {room room' : ℕ},
      FormedFields constant fs room → FormedFields constant' gs room' →
        labelledNodes kind fs = labelledNodes kind gs → fs = gs
  | [], gs, _, _, _, _, h => by cases gs <;> simp_all [labelledNodes]
  | (k, v) :: fs, gs, _, _, hf, hg, h => by
    cases gs with
    | nil => simp [labelledNodes] at h
    | cons g gs =>
        obtain ⟨k', w⟩ := g
        rw [labelledNodes, labelledNodes, List.cons_eq_cons, kindNode_injective] at h
        simp [nameNode, kindNode] at h
        rw [h.1.1, Value.eq_of_toJson hf.1.2 hg.1.2 h.1.2, eq_of_labelledNodes hf.2 hg.2 h.2]

end

/-! ## Arguments and directives -/

/-- Lists are told apart by an encoding that tells their elements apart. -/
theorem eq_of_map_eq {α : Type} {f : α → Json} : ∀ {xs ys : List α},
    (∀ x ∈ xs, ∀ y ∈ ys, f x = f y → x = y) → xs.map f = ys.map f → xs = ys
  | [], ys, _, h => (List.map_eq_nil_iff.mp h.symm).symm
  | x :: xs, [], _, h => by cases h
  | x :: xs, y :: ys, hinj, h => by
    rw [List.map_cons, List.map_cons, List.cons_eq_cons] at h
    rw [hinj x (.head _) y (.head _) h.1,
      eq_of_map_eq (fun a ha b hb => hinj a (.tail _ ha) b (.tail _ hb)) h.2]

theorem FormedArguments.exists_fields {arguments : Arguments} {room : ℕ}
    (h : FormedArguments arguments room) : ∃ inner, FormedFields false arguments inner := by
  rcases h with rfl | ⟨inner, _, hfields⟩
  · exact ⟨0, trivial⟩
  · exact ⟨inner, hfields⟩

section

variable {room room' : ℕ}

theorem eq_of_arguments {kind : String} {as bs : Arguments} (ha : FormedArguments as room)
    (hb : FormedArguments bs room') (h : labelledNodes kind as = labelledNodes kind bs) :
    as = bs := by
  obtain ⟨_, ha⟩ := ha.exists_fields
  obtain ⟨_, hb⟩ := hb.exists_fields
  exact eq_of_labelledNodes ha hb h

theorem Directive.eq_of_toJson {d e : Directive} (hd : d.Formed room) (he : e.Formed room')
    (h : d.toJson = e.toJson) : d = e := by
  rw [toJson, toJson, kindNode_injective, List.cons_eq_cons, argumentsField, argumentsField,
    listField_injective, Prod.mk.injEq, nameNode_injective.eq_iff] at h
  obtain ⟨_, ⟨_, hname⟩, harguments⟩ := h
  cases d
  cases e
  exact congrArg₂ mk hname (eq_of_arguments hd.arguments he.arguments harguments)

theorem eq_of_directives {ds es : List Directive} (hd : ∀ d ∈ ds, d.Formed room)
    (he : ∀ e ∈ es, e.Formed room') (h : ds.map Directive.toJson = es.map Directive.toJson) :
    ds = es :=
  eq_of_map_eq (fun d hd' e he' => Directive.eq_of_toJson (hd d hd') (he e he')) h

end

/-! ## Selections -/

/-- The member with the selections of a field. -/
def blockField (ss : List Selection) : List (String × Json) :=
  if ss.isEmpty then [] else [("selectionSet", setNode ss)]

@[simp]
theorem lacks_blockField {name : String} (h : "selectionSet" ≠ name) (ss : List Selection) :
    Lacks name (blockField ss) := by
  unfold blockField
  split <;> simp [h]

theorem setNode_injective {ss ts : List Selection} :
    setNode ss = setNode ts ↔ selectionNodes ss = selectionNodes ts := by
  rw [setNode, setNode, kindNode_injective, listField_injective]
  simp

theorem blockField_injective {ss ts : List Selection} :
    blockField ss = blockField ts ↔ selectionNodes ss = selectionNodes ts := by
  cases ss <;> cases ts <;> simp [blockField, setNode_injective, selectionNodes]

theorem namedTypeNode_injective : Function.Injective namedTypeNode := by
  intro a b h
  exact nameNode_injective (by simpa [namedTypeNode, kindNode_injective] using h)

section

variable {p p' : Position} {a a' : Option String} {n n' : String} {as as' : Arguments}
  {ds ds' : List Directive} {ss ss' : List Selection}

theorem Selection.toJson_field_iff :
    (Selection.field p a n as ds ss).toJson = (Selection.field p' a' n' as' ds' ss').toJson ↔
      a = a' ∧ n = n' ∧ labelledNodes "Argument" as = labelledNodes "Argument" as' ∧
        ds.map Directive.toJson = ds'.map Directive.toJson ∧
        selectionNodes ss = selectionNodes ss' := by
  rw [Selection.toJson, Selection.toJson, ← blockField, ← blockField, kindNode_injective]
  simp [optionField_append_iff, argumentsField, directivesField, listField_append_iff,
    blockField_injective, nameNode_injective.eq_iff,
    (Option.map_injective nameNode_injective).eq_iff]

theorem Selection.toJson_spread_iff :
    (Selection.spread p n ds).toJson = (Selection.spread p' n' ds').toJson ↔
      n = n' ∧ ds.map Directive.toJson = ds'.map Directive.toJson := by
  simp [Selection.toJson, kindNode_injective, directivesField, listField_injective,
    nameNode_injective.eq_iff]

theorem Selection.toJson_inline_iff :
    (Selection.inline p a ds ss).toJson = (Selection.inline p' a' ds' ss').toJson ↔
      a = a' ∧ ds.map Directive.toJson = ds'.map Directive.toJson ∧
        selectionNodes ss = selectionNodes ss' := by
  simp [Selection.toJson, kindNode_injective, optionField_append_iff, directivesField,
    listField_injective, setNode_injective, (Option.map_injective namedTypeNode_injective).eq_iff]

end

theorem exists_formedAll {ss : List Selection} {room : ℕ}
    (h : ss = [] ∨ FormedSet ss room) : ∃ inner, FormedAll ss inner := by
  rcases h with rfl | ⟨inner, _, _, hall⟩
  · exact ⟨0, trivial⟩
  · exact ⟨inner, hall⟩

mutual

theorem Selection.unplaced_of_toJson : ∀ {s t : Selection} {room room' : ℕ},
    s.Formed room → t.Formed room' → s.toJson = t.toJson → s.unplaced = t.unplaced
  | .field _ a n as ds ss, t, _, _, hs, ht, h => by
    cases t with
    | field _ a' n' as' ds' ss' =>
        obtain ⟨_, _, has, hds, hss⟩ := hs
        obtain ⟨_, _, has', hds', hss'⟩ := ht
        obtain ⟨_, hall⟩ := exists_formedAll hss
        obtain ⟨_, hall'⟩ := exists_formedAll hss'
        obtain ⟨rfl, rfl, harguments, hdirectives, hselections⟩ := Selection.toJson_field_iff.mp h
        rw [Selection.unplaced, Selection.unplaced, eq_of_arguments has has' harguments,
          eq_of_directives hds hds' hdirectives, unplacedAll_of_toJson hall hall' hselections]
    | _ => simp [Selection.toJson, kindNode_injective] at h
  | .spread _ n ds, t, _, _, hs, ht, h => by
    cases t with
    | spread _ n' ds' =>
        obtain ⟨_, _, hds⟩ := hs
        obtain ⟨_, _, hds'⟩ := ht
        obtain ⟨rfl, hdirectives⟩ := Selection.toJson_spread_iff.mp h
        rw [Selection.unplaced, Selection.unplaced, eq_of_directives hds hds' hdirectives]
    | _ => simp [Selection.toJson, kindNode_injective] at h
  | .inline _ a ds ss, t, _, _, hs, ht, h => by
    cases t with
    | inline _ a' ds' ss' =>
        obtain ⟨_, hds, _, _, _, hall⟩ := hs
        obtain ⟨_, hds', _, _, _, hall'⟩ := ht
        obtain ⟨rfl, hdirectives, hselections⟩ := Selection.toJson_inline_iff.mp h
        rw [Selection.unplaced, Selection.unplaced, eq_of_directives hds hds' hdirectives,
          unplacedAll_of_toJson hall hall' hselections]
    | _ => simp [Selection.toJson, kindNode_injective] at h

theorem unplacedAll_of_toJson : ∀ {ss ts : List Selection} {room room' : ℕ},
    FormedAll ss room → FormedAll ts room' → selectionNodes ss = selectionNodes ts →
      unplacedAll ss = unplacedAll ts
  | [], ts, _, _, _, _, h => by
    cases ts with
    | nil => rfl
    | cons t ts => simp [selectionNodes] at h
  | s :: ss, ts, _, _, hs, ht, h => by
    cases ts with
    | nil => simp [selectionNodes] at h
    | cons t ts =>
        rw [selectionNodes, selectionNodes, List.cons_eq_cons] at h
        rw [unplacedAll, unplacedAll, Selection.unplaced_of_toJson hs.1 ht.1 h.1,
          unplacedAll_of_toJson hs.2 ht.2 h.2]

end

theorem unplacedAll_of_setNode {ss ts : List Selection} {room room' : ℕ} (hs : FormedSet ss room)
    (ht : FormedSet ts room') (h : setNode ss = setNode ts) : unplacedAll ss = unplacedAll ts := by
  obtain ⟨_, hall⟩ := exists_formedAll (.inr hs)
  obtain ⟨_, hall'⟩ := exists_formedAll (.inr ht)
  exact unplacedAll_of_toJson hall hall' (setNode_injective.mp h)

/-! ## Definitions -/

theorem OperationKind.keyword_injective : Function.Injective keyword := fun a b h =>
  Option.some.inj (by rw [← ofKeyword?_keyword a, h, ofKeyword?_keyword])

theorem VariableDefinition.toJson_iff {v w : VariableDefinition} :
    v.toJson = w.toJson ↔
      v.name = w.name ∧ v.type = w.type ∧
        v.default?.map Value.toJson = w.default?.map Value.toJson := by
  have hdefault : ∀ a b : Option Json,
      optionField "defaultValue" a = optionField "defaultValue" b ↔ a = b := by
    intro a b
    rw [← List.append_nil (optionField _ a), ← List.append_nil (optionField _ b),
      optionField_append_iff lacks_nil lacks_nil, and_iff_left rfl]
  simp [toJson, Value.toJson, kindNode_injective, hdefault, nameNode_injective.eq_iff,
    TypeRef.toJson_injective.eq_iff]

theorem eq_of_default {a b : Option Value} {room room' : ℕ} (ha : ∀ d ∈ a, d.Formed true room)
    (hb : ∀ d ∈ b, d.Formed true room') (h : a.map Value.toJson = b.map Value.toJson) : a = b := by
  cases a with
  | none => exact (Option.map_eq_none_iff.mp h.symm).symm
  | some d =>
      obtain ⟨e, rfl, hjson⟩ := Option.map_eq_some_iff.mp h.symm
      rw [Value.eq_of_toJson (ha d rfl) (hb e rfl) hjson.symm]

theorem VariableDefinition.eq_of_toJson {v w : VariableDefinition} {room room' : ℕ}
    (hv : v.Formed room) (hw : w.Formed room') (h : v.toJson = w.toJson) : v = w := by
  obtain ⟨hname, htype, hjson⟩ := toJson_iff.mp h
  have hdefault := eq_of_default hv.default? hw.default? hjson
  cases v
  cases w
  rw [mk.injEq]
  exact ⟨hname, htype, hdefault⟩

theorem eq_of_variables {vs ws : List VariableDefinition} {room room' : ℕ}
    (hv : vs = [] ∨ ∃ inner, room = inner + 1 ∧ ∀ v ∈ vs, v.Formed inner)
    (hw : ws = [] ∨ ∃ inner, room' = inner + 1 ∧ ∀ w ∈ ws, w.Formed inner)
    (h : vs.map VariableDefinition.toJson = ws.map VariableDefinition.toJson) : vs = ws := by
  rcases hv with rfl | ⟨_, _, hv⟩
  · exact (List.map_eq_nil_iff.mp h.symm).symm
  · rcases hw with rfl | ⟨_, _, hw⟩
    · exact List.map_eq_nil_iff.mp h
    · exact eq_of_map_eq
        (fun v hv' w hw' => VariableDefinition.eq_of_toJson (hv v hv') (hw w hw')) h

theorem operationNode_iff {kind kind' : OperationKind} {name? name?' : Option String}
    {vs vs' : List VariableDefinition} {ds ds' : List Directive} {ss ss' : List Selection} :
    operationNode kind name? vs ds ss = operationNode kind' name?' vs' ds' ss' ↔
      kind = kind' ∧ name? = name?' ∧
        vs.map VariableDefinition.toJson = vs'.map VariableDefinition.toJson ∧
        ds.map Directive.toJson = ds'.map Directive.toJson ∧ setNode ss = setNode ss' := by
  simp [operationNode, kindNode_injective, optionField_append_iff, listField_append_iff,
    directivesField, listField_injective, OperationKind.keyword_injective.eq_iff,
    (Option.map_injective nameNode_injective).eq_iff]

theorem OperationDefinition.unplaced_of_toJson {d e : OperationDefinition} {room room' : ℕ}
    (hd : d.Formed room) (he : e.Formed room') (h : d.toJson = e.toJson) :
    d.unplaced = e.unplaced := by
  obtain ⟨hkind, hname, hvariables, hdirectives, hset⟩ := operationNode_iff.mp h
  rw [unplaced, unplaced, hkind, hname,
    eq_of_variables hd.variableDefinitions he.variableDefinitions hvariables,
    eq_of_directives hd.directives he.directives hdirectives,
    unplacedAll_of_setNode hd.selections he.selections hset]

theorem FragmentDefinition.unplaced_of_toJson {d e : FragmentDefinition} {room room' : ℕ}
    (hd : d.Formed room) (he : e.Formed room') (h : d.toJson = e.toJson) :
    d.unplaced = e.unplaced := by
  obtain ⟨hname, hcondition, hdirectives, hset⟩ : d.name = e.name ∧ d.condition = e.condition ∧
      d.directives.map Directive.toJson = e.directives.map Directive.toJson ∧
      setNode d.selections = setNode e.selections := by
    simpa [toJson, kindNode_injective, directivesField, listField_injective,
      nameNode_injective.eq_iff, namedTypeNode_injective.eq_iff] using h
  rw [unplaced, unplaced, hname, hcondition,
    eq_of_directives hd.directives he.directives hdirectives,
    unplacedAll_of_setNode hd.selections he.selections hset]

/-- Whether a text has a definition among others. -/
def Definition.Parsed (x : Definition) : Prop := ∃ text xs, parseDocument text = .ok xs ∧ x ∈ xs

theorem Definition.Parsed.formed {x : Definition} (h : x.Parsed) : x.Formed Grammar.depthLimit := by
  obtain ⟨_, _, hparse, hx⟩ := h
  exact formed_of_parse hparse x hx

theorem Definition.unplaced_of_toJson {x y : Definition} {room room' : ℕ} (hx : x.Formed room)
    (hy : y.Formed room') (hx' : x.Named) (hy' : y.Named) (h : x.toJson = y.toJson) :
    x.unplaced = y.unplaced := by
  cases x with
  | shorthand _ ss =>
      cases y with
      | shorthand _ ss' =>
          rw [unplaced, unplaced, unplacedAll_of_setNode hx hy (operationNode_iff.mp h).2.2.2.2]
      | operation e => exact absurd (operationNode_iff.mp h).2.1.symm (hy' e rfl)
      | fragment e =>
          simp [toJson, FragmentDefinition.toJson, operationNode, kindNode_injective] at h
  | operation d =>
      cases y with
      | shorthand => exact absurd (operationNode_iff.mp h).2.1 (hx' d rfl)
      | operation e => rw [unplaced, unplaced, d.unplaced_of_toJson hx hy h]
      | fragment e =>
          simp [toJson, FragmentDefinition.toJson, OperationDefinition.toJson, operationNode,
            kindNode_injective] at h
  | fragment d =>
      cases y with
      | fragment e => rw [unplaced, unplaced, d.unplaced_of_toJson hx hy h]
      | _ =>
          simp [toJson, FragmentDefinition.toJson, OperationDefinition.toJson, operationNode,
            kindNode_injective] at h

/-- Two definitions that were read have one encoding exactly if they differ in positions alone. So
all the rest can be decoded. -/
theorem Definition.toJson_faithful :
    (∀ x y : Definition, x.Parsed → y.Parsed → x.Named → y.Named →
      (x.toJson = y.toJson ↔ x.unplaced = y.unplaced)) ∧
      ∃ decode : Json → Definition, ∀ x : Definition, x.Parsed → x.Named →
        decode x.toJson = x.unplaced := by
  have hiff : ∀ x y : Definition, x.Parsed → y.Parsed → x.Named → y.Named →
      (x.toJson = y.toJson ↔ x.unplaced = y.unplaced) := by
    intro x y hx hy hx' hy'
    refine ⟨unplaced_of_toJson hx.formed hy.formed hx' hy', fun h => ?_⟩
    rw [← x.toJson_unplaced, h, y.toJson_unplaced]
  refine ⟨hiff, ?_⟩
  have hfactors : Function.FactorsThrough
      (fun x : {x : Definition // x.Parsed ∧ x.Named} => x.val.unplaced) (fun x => x.val.toJson) :=
    fun x y h => (hiff x y x.2.1 y.2.1 x.2.2 y.2.2).mp h
  obtain ⟨decode, hdecode⟩ := (Function.factorsThrough_iff _).mp hfactors
  exact ⟨decode, fun x hx hx' => (congrFun hdecode ⟨x, hx, hx'⟩).symm⟩

/-! ## A query of one field -/

def askField (place : Position) (arguments : Arguments) : Definition :=
  .operation ⟨⟨1, 1⟩, .query, some "Ask", [], [], [.field place none "a" arguments [] []]⟩

theorem named_askField (place : Position) (arguments : Arguments) :
    (askField place arguments).Named := by
  rintro d hd
  rw [← Definition.operation.inj hd]
  exact Option.some_ne_none "Ask"

theorem parse_askField : parseDocument "query Ask \x7b a(x: B) \x7d" =
    .ok [askField ⟨1, 13⟩ [("x", .enum "B")]] := by cbv

theorem parse_askField_below : parseDocument "query Ask \x7b\n  a(x: B)\n\x7d" =
    .ok [askField ⟨2, 3⟩ [("x", .enum "B")]] := by cbv

theorem parse_askField_bare :
    parseDocument "query Ask \x7b a \x7d" = .ok [askField ⟨1, 13⟩ []] := by cbv

/-- The line of a field does not change the encoding; a missing argument does. -/
theorem toJson_faithful_askField :
    (askField ⟨1, 13⟩ [("x", .enum "B")]).toJson = (askField ⟨2, 3⟩ [("x", .enum "B")]).toJson ∧
      (askField ⟨1, 13⟩ [("x", .enum "B")]).toJson ≠ (askField ⟨1, 13⟩ []).toJson := by
  have hparsed : (askField ⟨1, 13⟩ [("x", .enum "B")]).Parsed := ⟨_, _, parse_askField, .head _⟩
  have hbelow : (askField ⟨2, 3⟩ [("x", .enum "B")]).Parsed :=
    ⟨_, _, parse_askField_below, .head _⟩
  have hbare : (askField ⟨1, 13⟩ []).Parsed := ⟨_, _, parse_askField_bare, .head _⟩
  obtain ⟨hfaithful, _⟩ := Definition.toJson_faithful
  constructor
  · exact (hfaithful _ _ hparsed hbelow (named_askField _ _) (named_askField _ _)).mpr rfl
  · intro h
    have hunplaced :=
      (hfaithful _ _ hparsed hbare (named_askField _ _) (named_askField _ _)).mp h
    simp [askField, Definition.unplaced, OperationDefinition.unplaced, unplacedAll,
      Selection.unplaced] at hunplaced

end Composables.Graphql
