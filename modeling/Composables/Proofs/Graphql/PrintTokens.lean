import Composables.Proofs.Graphql.Literal

/-
  The tokens of a printed definition: those of the tree, with each literal as it is read
  (`Definition.scans_print`).
-/

namespace Composables.Graphql

variable {r : Reader} {s t : String} {ts us : List (Option Token)}

theorem guardsAll_of {c : Char} {cs : List Char} (h : s.toList = c :: cs)
    (hc : Token.endsNumber c) : GuardsAll s := by
  refine ⟨?_, ?_⟩
  · rintro rfl
    cases h
  · intro d hd
    rw [h] at hd
    cases hd
    exact hc

theorem GuardsAll.guards (h : GuardsAll s) : Guards s := h.2

theorem guards_ite {p : Prop} [Decidable p] (hs : Guards s) (ht : Guards t) :
    Guards (if p then s else t) := by
  split
  · exact hs
  · exact ht

/-- A text of symbols and spaces. -/
theorem reads_closed (h : s.toList.all (fun c => Token.isSpace c || Token.isSymbol c) = true) :
    Reads r s (symbolTokens s) :=
  reads_symbols fun c hc => by simpa using List.all_eq_true.mp h c hc

theorem reads_empty : Reads r "" [] := fun _ _ h => h

theorem reads_space : Reads r " " [] := reads_closed (by decide)

theorem reads_feed : Reads r "\n" [] := reads_closed (by decide)

/-- Pieces side by side have their tokens, if none runs on into the next. -/
theorem readsOpen_intercalate {α : Type} {separator : String} {print : α → String}
    {tokens : α → List (Option Token)} {xs : List α} (hseparator : Reads r separator [])
    (hxs : ∀ x ∈ xs, ReadsOpen r (print x) (tokens x))
    (hguards : ∀ x ∈ xs, GuardsAll (separator ++ print x)) :
    ReadsOpen r (separator.intercalate (xs.map print)) (xs.flatMap tokens) := by
  induction xs with
  | nil => exact reads_empty.open
  | cons x xs ih =>
      rw [List.forall_mem_cons] at hxs hguards
      cases xs with
      | nil =>
          rw [List.map_singleton, String.intercalate_singleton, List.flatMap_singleton]
          exact hxs.1
      | cons y xs =>
          obtain ⟨z, hz⟩ : ∃ z, separator.intercalate ((y :: xs).map print) = print y ++ z := by
            cases xs with
            | nil => exact ⟨"", by rw [List.map_singleton, String.intercalate_singleton,
                String.append_empty]⟩
            | cons y' xs =>
                exact ⟨_, by rw [List.map_cons, List.map_cons, String.intercalate_cons_cons,
                  String.append_assoc]⟩
          rw [List.map_cons, List.map_cons, String.intercalate_cons_cons, ← List.map_cons,
            String.append_assoc, List.flatMap_cons]
          refine hxs.1.append (hseparator.append_open (ih hxs.2 hguards.2)) ?_
          rw [hz, ← String.append_assoc]
          exact ((hguards.2 y List.mem_cons_self).append z).guards

theorem guardsAll_comma (x : String) : GuardsAll (", " ++ x) :=
  GuardsAll.append (guardsAll_of rfl rfl) x

theorem guardsAll_space (x : String) : GuardsAll (" " ++ x) :=
  GuardsAll.append (guardsAll_of rfl rfl) x

/-! ## Values -/

theorem printItems_eq (indent : Nat) (vs : List Value) :
    printItems indent vs = vs.map (Value.print indent) := by
  induction vs with
  | nil => rfl
  | cons v vs ih => rw [printItems, ih, List.map_cons]

theorem printFields_eq (indent : Nat) (fields : List (String × Value)) :
    printFields indent fields = fields.map fun f => f.1 ++ ": " ++ f.2.print indent := by
  induction fields with
  | nil => rfl
  | cons f fields ih => rw [printFields, ih, List.map_cons]

theorem itemTokens_eq (read : Reading) (indent : Nat) (vs : List Value) :
    itemTokens read indent vs = vs.flatMap (Value.tokens read indent) := by
  induction vs with
  | nil => rfl
  | cons v vs ih => rw [itemTokens, ih, List.flatMap_cons]

theorem fieldTokens_eq (read : Reading) (indent : Nat) (fields : List (String × Value)) :
    fieldTokens read indent fields =
      fields.flatMap fun f => some (.name f.1) :: some (.symbol ':') :: f.2.tokens read indent := by
  induction fields with
  | nil => rfl
  | cons f fields ih => rw [fieldTokens, ih, List.flatMap_cons]; rfl

theorem readsOpen_field {k x : String} (hk : IsName k) (hx : ReadsOpen r x ts) :
    ReadsOpen r (k ++ ": " ++ x) (some (.name k) :: some (.symbol ':') :: ts) := by
  have hcolon : Reads r ": " [some (.symbol ':')] := reads_closed (by decide)
  exact ((readsOpen_name hk).close hcolon (guardsAll_of rfl rfl)).append_open hx

/-- What stands between brackets has its tokens between those of the brackets. -/
theorem reads_enclosed {opening closing : String} {o c : Char}
    (ho : Reads r opening [some (.symbol o)]) (hc : Reads r closing [some (.symbol c)])
    (hguards : GuardsAll closing) (h : ReadsOpen r s ts) :
    Reads r (opening ++ s ++ closing) (some (.symbol o) :: (ts ++ [some (.symbol c)])) := by
  have := ho.append (h.close hc hguards)
  rwa [← String.append_assoc] at this

mutual

/-- A printed value has its tokens. -/
theorem Value.readsOpen_print (indent : Nat) {constant : Bool} :
    ∀ {v : Value} {room : Nat}, v.Formed constant room →
      ReadsOpen r (v.print indent) (v.tokens r.reading indent)
  | .variable name, _, h => by
    rw [Value.print, Value.tokens]
    exact (reads_closed (by decide : _ = true)).append_open (readsOpen_name h.2)
  | .int n, _, _ => readsOpen_int indent n
  | .float x, _, h => readsOpen_float indent h
  | .string s, _, _ => readsOpen_string indent s
  | .boolean b, _, _ => by
    rw [Value.print, Value.tokens]
    refine readsOpen_name ?_
    cases b
    · exact isName_of rfl (by decide)
    · exact isName_of rfl (by decide)
  | .null, _, _ => by
    rw [Value.print, Value.tokens]
    exact readsOpen_name (isName_of rfl (by decide))
  | .enum name, _, h => by
    rw [Value.print, Value.tokens]
    exact readsOpen_name h.1
  | .list items, _, h => by
    obtain ⟨inner, _, hitems⟩ := h
    rw [Value.print, Value.tokens, printItems_eq, itemTokens_eq]
    refine (reads_enclosed (reads_closed (by decide)) (reads_closed (by decide))
      (guardsAll_of rfl rfl) (readsOpen_intercalate (reads_closed (by decide)) ?_ fun x _ =>
        guardsAll_comma _)).open
    exact readsOpen_items indent hitems
  | .object fields, _, h => by
    obtain ⟨inner, _, _, hfields⟩ := h
    rw [Value.print, Value.tokens, printFields_eq, fieldTokens_eq]
    refine (reads_enclosed (reads_closed (by decide)) (reads_closed (by decide))
      (guardsAll_of rfl rfl) (readsOpen_intercalate (reads_closed (by decide)) ?_ fun x _ =>
        guardsAll_comma _)).open
    exact readsOpen_fields indent hfields

theorem readsOpen_items (indent : Nat) {constant : Bool} :
    ∀ {vs : List Value} {room : Nat}, FormedItems constant vs room →
      ∀ v ∈ vs, ReadsOpen r (v.print indent) (v.tokens r.reading indent)
  | [], _, _ => by simp
  | v :: vs, _, h => List.forall_mem_cons.mpr
      ⟨Value.readsOpen_print indent h.1, readsOpen_items indent h.2⟩

theorem readsOpen_fields (indent : Nat) {constant : Bool} :
    ∀ {fields : List (String × Value)} {room : Nat}, FormedFields constant fields room →
      ∀ f ∈ fields, ReadsOpen r (f.1 ++ ": " ++ f.2.print indent)
        (some (.name f.1) :: some (.symbol ':') :: f.2.tokens r.reading indent)
  | [], _, _ => by simp
  | (k, v) :: fields, _, h => List.forall_mem_cons.mpr
      ⟨readsOpen_field h.1.1 (Value.readsOpen_print indent h.1.2), readsOpen_fields indent h.2⟩

end

/-! ## Arguments and directives -/

theorem Guards.append_all (hs : Guards s) (ht : GuardsAll t) : GuardsAll (s ++ t) := by
  refine ⟨?_, hs.append ht.2⟩
  rw [Ne, String.append_eq_empty_iff]
  exact fun h => ht.1 h.2

theorem guards_printArguments (indent : Nat) (arguments : Arguments) :
    Guards (printArguments indent arguments) := by
  unfold printArguments
  rw [String.append_assoc]
  exact guards_ite guards_nil (GuardsAll.append (guardsAll_of rfl rfl) _).guards

theorem reads_printArguments (indent : Nat) {arguments : Arguments} {room : Nat}
    (h : FormedArguments arguments room) :
    Reads r (printArguments indent arguments) (argumentTokens r.reading indent arguments) := by
  unfold printArguments argumentTokens
  split
  · rename_i hempty
    rw [if_pos (List.isEmpty_iff.mp hempty)]
    exact reads_empty
  · rename_i hempty
    rw [if_neg (mt List.isEmpty_iff.mpr hempty), printFields_eq, fieldTokens_eq]
    obtain ⟨inner, _, hfields⟩ := h.resolve_left (mt List.isEmpty_iff.mpr hempty)
    exact reads_enclosed (reads_closed (by decide)) (reads_closed (by decide))
      (guardsAll_of rfl rfl)
      (readsOpen_intercalate (reads_closed (by decide)) (readsOpen_fields indent hfields)
        fun x _ => guardsAll_comma _)

theorem Directive.readsOpen_print (indent : Nat) {d : Directive} {room : Nat} (h : d.Formed room) :
    ReadsOpen r (d.print indent) (d.tokens r.reading indent) := by
  rw [Directive.print, Directive.tokens, String.append_assoc]
  exact (reads_closed (by decide : _ = true)).append_open
    ((readsOpen_name h.name).append (reads_printArguments indent h.arguments).open
      (guards_printArguments indent d.arguments))

theorem printDirectives_cons (indent : Nat) (d : Directive) (ds : List Directive) :
    printDirectives indent (d :: ds) = " " ++ d.print indent ++ printDirectives indent ds := by
  rw [printDirectives, List.map_cons, String.join_cons, printDirectives]

theorem guards_printDirectives (indent : Nat) (ds : List Directive) :
    Guards (printDirectives indent ds) := by
  cases ds with
  | nil => exact guards_nil
  | cons d ds =>
      rw [printDirectives_cons, String.append_assoc]
      exact (guardsAll_space _).guards

theorem readsOpen_printDirectives (indent : Nat) {ds : List Directive} {room : Nat}
    (h : ∀ d ∈ ds, d.Formed room) :
    ReadsOpen r (printDirectives indent ds) (directiveTokens r.reading indent ds) := by
  induction ds with
  | nil => exact reads_empty.open
  | cons d ds ih =>
      rw [List.forall_mem_cons] at h
      rw [printDirectives_cons, directiveTokens, List.flatMap_cons, ← directiveTokens]
      exact (reads_space.append_open (Directive.readsOpen_print indent h.1)).append (ih h.2)
        (guards_printDirectives indent ds)

/-! ## Selections -/

theorem reads_printSet {indent : Nat} {ss : List Selection}
    (h : Reads r (printSelections (indent + 2) ss) (selectionTokens r.reading (indent + 2) ss)) :
    Reads r (printSet indent ss) (setTokens r.reading indent ss) := by
  have hopen : Reads r "\x7b\n" [some (.symbol '\x7b')] := reads_closed (by decide)
  have hclose : Reads r "\x7d" [some (.symbol '\x7d')] := reads_closed (by decide)
  have := hopen.append (h.append ((reads_spaces indent).append hclose))
  rw [printSet]
  simpa only [setTokens, String.append_assoc, List.nil_append, List.cons_append] using this

theorem readsOpen_label {alias? : Option String} {name : String} (halias : ∀ a ∈ alias?, IsName a)
    (hname : IsName name) :
    ReadsOpen r (match alias? with
      | some a => a ++ ": " ++ name
      | none => name) (labelTokens alias? name) := by
  cases alias? with
  | none => exact readsOpen_name hname
  | some a => exact readsOpen_field (halias a rfl) (readsOpen_name hname)

theorem readsOpen_printCondition {condition? : Option String} (h : ∀ c ∈ condition?, IsName c) :
    ReadsOpen r (printCondition condition?) (conditionTokens condition?) := by
  cases condition? with
  | none => exact reads_empty.open
  | some name =>
      have hon : IsName "on" := isName_of rfl (by decide)
      have := (reads_space (r := r)).append_open
        ((readsOpen_name hon).append (reads_space.append_open (readsOpen_name (h name rfl)))
          (guardsAll_space name).guards)
      rwa [← String.append_assoc, ← String.append_assoc] at this

theorem guards_printCondition (condition? : Option String) :
    Guards (printCondition condition?) := by
  cases condition? with
  | none => exact guards_nil
  | some name => exact (GuardsAll.append (guardsAll_of rfl rfl) name).guards

/-- Directives and selections in braces, as they stand at the end of a definition. -/
theorem reads_body {indent : Nat} {ds : List Directive} {ss : List Selection} {room : Nat}
    (hds : ∀ d ∈ ds, d.Formed room)
    (hss : Reads r (printSelections (indent + 2) ss) (selectionTokens r.reading (indent + 2) ss)) :
    Reads r (printDirectives indent ds ++ (" " ++ printSet indent ss))
      (directiveTokens r.reading indent ds ++ setTokens r.reading indent ss) := by
  exact (readsOpen_printDirectives indent hds).close (reads_space.append (reads_printSet hss))
    (guardsAll_space _)

theorem guardsAll_body (indent : Nat) (ds : List Directive) (ss : List Selection) :
    GuardsAll (printDirectives indent ds ++ (" " ++ printSet indent ss)) :=
  (guards_printDirectives indent ds).append_all (guardsAll_space _)

mutual

/-- A printed selection has its tokens. -/
theorem Selection.reads_print (indent : Nat) : ∀ {s : Selection} {room : Nat}, s.Formed room →
    Reads r (s.print indent) (s.tokens r.reading indent)
  | .field _ alias? name arguments directives selections, room, h => by
    obtain ⟨halias, hname, harguments, hdirectives, hselections⟩ := h
    have hblock : Reads r (if selections.isEmpty then "" else " " ++ printSet indent selections)
        (if selections.isEmpty then [] else setTokens r.reading indent selections) := by
      split
      · exact reads_empty
      · rename_i hempty
        obtain ⟨inner, _, _, hall⟩ := hselections.resolve_left (mt List.isEmpty_iff.mpr hempty)
        exact reads_space.append (reads_printSet (reads_printSelections (indent + 2) hall))
    have hguards : Guards (if selections.isEmpty then "" else " " ++ printSet indent selections) :=
      guards_ite guards_nil (guardsAll_space _).guards
    have htail := (readsOpen_printDirectives indent hdirectives).close (hblock.append reads_feed)
      (hguards.append_all (guardsAll_of rfl rfl))
    have hrest := (readsOpen_label halias hname).close
      ((reads_printArguments indent harguments).append htail)
      ((guards_printArguments indent arguments).append_all
        ((guards_printDirectives indent directives).append_all
          (hguards.append_all (guardsAll_of rfl rfl))))
    have := (reads_spaces indent).append hrest
    cases alias? with
    | none =>
      simpa only [Selection.print, Selection.tokens, String.append_assoc, List.append_assoc,
        List.append_nil, List.nil_append, setTokens] using this
    | some a =>
      simpa only [Selection.print, Selection.tokens, String.append_assoc, List.append_assoc,
        List.append_nil, List.nil_append, setTokens] using this
  | .spread _ name directives, room, h => by
    have hrest := (readsOpen_name h.1).close
      ((readsOpen_printDirectives (r := r) indent h.2.2).close reads_feed (guardsAll_of rfl rfl))
      ((guards_printDirectives indent directives).append_all (guardsAll_of rfl rfl))
    have := (reads_spaces indent).append (reads_dots.append hrest)
    rw [Selection.print, Selection.tokens]
    simpa only [String.append_assoc, List.append_assoc, List.append_nil, List.nil_append,
      List.cons_append] using this
  | .inline _ condition? directives selections, room, h => by
    obtain ⟨hcondition, hdirectives, inner, _, _, hall⟩ := h
    have hbody :=
      (reads_body hdirectives (reads_printSelections (indent + 2) hall)).append reads_feed
    have hrest := (readsOpen_printCondition hcondition).close hbody
      ((guardsAll_body indent directives selections).append _)
    have := (reads_spaces indent).append (reads_dots.append hrest)
    rw [Selection.print, Selection.tokens]
    simpa only [String.append_assoc, List.append_assoc, List.append_nil, List.nil_append,
      List.cons_append, setTokens] using this

theorem reads_printSelections (indent : Nat) : ∀ {ss : List Selection} {room : Nat},
    FormedAll ss room → Reads r (printSelections indent ss) (selectionTokens r.reading indent ss)
  | [], _, _ => by
    rw [printSelections, selectionTokens]
    exact reads_empty
  | s :: ss, _, h => by
    rw [printSelections, selectionTokens]
    exact (Selection.reads_print indent h.1).append (reads_printSelections indent h.2)

end

/-! ## Definitions -/

theorem TypeRef.readsOpen_print : ∀ {type : TypeRef} {room : Nat}, type.Formed room →
    ReadsOpen r type.print type.tokens
  | .named name, _, h => readsOpen_name h
  | .list type, _, h => by
    obtain ⟨inner, _, h⟩ := h
    rw [TypeRef.print, TypeRef.tokens]
    exact (reads_enclosed (reads_closed (by decide)) (reads_closed (by decide))
      (guardsAll_of rfl rfl) (TypeRef.readsOpen_print h)).open
  | .nonNull type, _, h => by
    rw [TypeRef.print, TypeRef.tokens]
    exact ((TypeRef.readsOpen_print h.2).close (reads_closed (by decide))
      (guardsAll_of rfl rfl)).open

theorem VariableDefinition.readsOpen_print (v : VariableDefinition) {room : Nat}
    (h : v.Formed room) :
    ReadsOpen r v.print (v.tokens r.reading) := by
  have hdollar : Reads r "$" [some (.symbol '$')] := reads_closed (by decide)
  have hcolon : Reads r ": " [some (.symbol ':')] := reads_closed (by decide)
  have hequals : Reads r " = " [some (.symbol '=')] := reads_closed (by decide)
  have hhead := hdollar.append ((readsOpen_name h.name).close hcolon (guardsAll_of rfl rfl))
  unfold print tokens
  cases hdefault : v.default? with
  | none =>
      have := hhead.append_open (TypeRef.readsOpen_print h.type)
      simpa only [String.append_assoc, String.append_empty, List.append_nil, List.cons_append,
        List.nil_append] using this
  | some d =>
      have hd : d.Formed true room := h.default? d hdefault
      have := hhead.append_open ((TypeRef.readsOpen_print h.type).append
        (hequals.append_open (Value.readsOpen_print 0 hd))
          (GuardsAll.append (guardsAll_of rfl rfl) _).guards)
      simpa only [String.append_assoc, List.cons_append, List.nil_append] using this

theorem VariableDefinition.guardsAll_print (v : VariableDefinition) : GuardsAll v.print := by
  unfold print
  dsimp only
  rw [String.append_assoc, String.append_assoc, String.append_assoc]
  exact GuardsAll.append (guardsAll_of rfl rfl) _

theorem OperationDefinition.reads_printVariables {d : OperationDefinition} {room : Nat}
    (h : d.Formed room) : Reads r d.printVariables (variableTokens r.reading d.shown) := by
  unfold printVariables shown variableTokens
  by_cases hempty : d.variableDefinitions = []
  · simp only [hempty, List.isEmpty_nil, Bool.true_or, if_true, ite_self]
    exact reads_empty
  · obtain ⟨inner, _, hvs⟩ := h.variableDefinitions.resolve_left hempty
    by_cases hhidden : d.kind = .subscription ∧ d.name? = none
    · simp only [hhidden, Option.isNone_none, beq_self_eq_true, Bool.and_true, Bool.or_true,
        if_true, and_self]
      exact reads_empty
    · have hcond : (d.variableDefinitions.isEmpty || (d.kind == .subscription && d.name?.isNone)) =
          false := by
        simp only [Bool.or_eq_false_iff, List.isEmpty_eq_false_iff, ne_eq, hempty, not_false_iff,
          true_and, Bool.and_eq_false_iff, beq_eq_false_iff_ne, Option.isNone_eq_false_iff,
          Option.isSome_iff_ne_none]
        tauto
      dsimp only
      rw [hcond, if_neg (by decide), if_neg hhidden, if_neg hempty]
      refine reads_enclosed (reads_closed (by decide)) (reads_closed (by decide))
        (guardsAll_of rfl rfl)
        (readsOpen_intercalate ?_ (fun v hv => v.readsOpen_print (hvs v hv)) ?_)
      · split <;> exact reads_closed (by decide)
      · intro v _
        split
        · rw [String.empty_append]
          exact v.guardsAll_print
        · exact guardsAll_comma _

theorem OperationDefinition.guards_printVariables (d : OperationDefinition) :
    Guards d.printVariables := by
  unfold printVariables
  dsimp only
  rw [String.append_assoc]
  exact guards_ite guards_nil (GuardsAll.append (guardsAll_of rfl rfl) _).guards

theorem isName_keyword (kind : OperationKind) : IsName kind.keyword := by
  cases kind
  · exact isName_of rfl (by decide)
  · exact isName_of rfl (by decide)
  · exact isName_of rfl (by decide)

theorem OperationDefinition.reads_print {d : OperationDefinition} {room : Nat} (h : d.Formed room) :
    Reads r d.print (d.tokens r.reading) := by
  obtain ⟨inner, _, _, hall⟩ := h.selections
  have hbody := reads_body (r := r) h.directives (reads_printSelections 2 hall)
  have hrest := (reads_printVariables h).append hbody
  have hguards : GuardsAll (d.printVariables ++
      (printDirectives 0 d.directives ++ (" " ++ printSet 0 d.selections))) :=
    (guards_printVariables d).append_all (guardsAll_body 0 d.directives d.selections)
  unfold print tokens
  cases hname : d.name? with
  | none =>
      have := (readsOpen_name (isName_keyword d.kind)).close hrest hguards
      simpa [String.append_assoc] using this
  | some name =>
      have hword : IsName name := h.name? name hname
      have := (readsOpen_name (isName_keyword d.kind)).close
        (reads_space.append ((readsOpen_name hword).close hrest hguards))
        (guardsAll_space _)
      simpa [String.append_assoc] using this

theorem FragmentDefinition.reads_print {d : FragmentDefinition} {room : Nat} (h : d.Formed room) :
    Reads r d.print (d.tokens r.reading) := by
  obtain ⟨inner, _, _, hall⟩ := h.selections
  have hword : Reads r "fragment " [some (.name "fragment")] :=
    ReadsOpen.close (s := "fragment") (readsOpen_name (isName_of rfl (by decide))) reads_space
      (guardsAll_of rfl rfl)
  have hcondition : ∀ c ∈ some d.condition, IsName c := by simpa using h.condition
  have hbody := reads_body (r := r) h.directives (reads_printSelections 2 hall)
  have hrest := (readsOpen_printCondition hcondition).close hbody
    (guardsAll_body 0 d.directives d.selections)
  have := hword.append ((readsOpen_name h.name).close hrest
    ((guards_printCondition _).append_all (guardsAll_body 0 d.directives d.selections)))
  unfold print tokens
  simpa [String.append_assoc, conditionTokens] using this

/-- The tokens of a printed definition are those of its tree. -/
theorem Definition.scans_print {x : Definition} {room : Nat} (h : x.Formed room) :
    Scans r x.print.toList (x.tokens r.reading) := by
  have hreads : Reads r x.print (x.tokens r.reading) := by
    cases x with
    | shorthand position selections =>
        obtain ⟨inner, _, _, hall⟩ := h
        exact reads_printSet (reads_printSelections 2 hall)
    | operation d => exact d.reads_print h
    | fragment d => exact d.reads_print h
  have := hreads [] [] (.done rfl)
  rwa [List.append_nil, List.append_nil] at this

end Composables.Graphql
