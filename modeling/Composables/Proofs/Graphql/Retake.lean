import Composables.Proofs.Graphql.PrintTokens
import Composables.Proofs.Graphql.Takes

/-
  Reading the tokens of a tree: the grammar takes them all and gives the tree, with its literals as
  they are read and its positions aside (`takes_definition`).
-/

namespace Composables.Graphql

/-- Whether literals are read as tokens that stand for values. -/
def Reading.Atomic (read : Reading) : Prop :=
  ∀ indent literal t, read indent literal = some t → t.value?.isSome

theorem atomic_of_reader {r : Reader} (hnumber : ∀ cs t, r.number cs = some t → t.value?.isSome)
    (hquoted : ∀ cs t, r.quoted cs = some t → t.value?.isSome)
    (hblock : ∀ cs t, r.block cs = some t → t.value?.isSome) : r.reading.Atomic := by
  intro indent literal t ht
  unfold Reader.reading at ht
  split at ht
  · exact hnumber _ t ht
  · split at ht
    · cases ht
      rfl
    · exact hnumber _ t ht
  · split at ht
    · exact hblock _ t ht
    · exact hquoted _ t ht
  · cases ht

theorem strict_atomic : Reader.strict.reading.Atomic := by
  refine atomic_of_reader (fun cs t ht => ?_) (fun cs t ht => ?_) fun cs t ht => ?_
  · unfold Reader.strict Token.ofNumeral? at ht
    dsimp only at ht
    split at ht
    · obtain ⟨x, _, rfl⟩ := Option.map_eq_some_iff.mp ht
      rfl
    · obtain ⟨n, _, rfl⟩ := Option.map_eq_some_iff.mp ht
      rfl
  · obtain ⟨s, _, rfl⟩ := Option.map_eq_some_iff.mp ht
    rfl
  · cases ht
    rfl

theorem verbatim_atomic : Reader.verbatim.reading.Atomic := by
  refine atomic_of_reader (fun cs t ht => ?_) (fun cs t ht => ?_) fun cs t ht => ?_
  all_goals
    cases ht
    rfl

namespace Grammar

open Composables.Graphql.Parser

variable {α : Type} {p : Parser α} {P : α → Prop} {ts us : List (Option Token)}
  {Next : Token → Prop} {read : Reading} {indent room : Nat} {constant : Bool}

theorem takes_bracketed {opening closing : Char} (hp : Takes p ts Next P)
    (hclosing : Next (.symbol closing)) :
    Takes (bracketed opening closing p)
      (some (.symbol opening) :: (ts ++ [some (.symbol closing)])) Any P := by
  refine (Takes.symbol opening).next fun _ _ => hp.bind (fun a ha => ?_) fun vs _ => ?_
  · exact (Takes.symbol closing).map fun _ _ => ha
  · exact follows_cons hclosing

/-! ### Types -/

/-- What may follow a type without a mark. -/
abbrev marked (inner : TypeRef) : Parser TypeRef := do
  if ← accept (.symbol '!') then return .nonNull inner else return inner

theorem takes_mark (inner : TypeRef) :
    Takes (marked inner) [some (.symbol '!')] Any (· = .nonNull inner) := by
  rw [← List.append_nil [_]]
  refine (Takes.accept (.symbol '!')).next ?_
  rintro _ rfl
  exact .pure rfl

theorem takes_noMark (inner : TypeRef) : Takes (marked inner) [] (Avoids ['!']) (· = inner) :=
  .refuse (.pure rfl) fun _ h => h.mono fun t ht => ht '!' (by simp)

/-- A type without a mark, and what follows it. -/
theorem takes_typeWith {list : Parser TypeRef} {type : TypeRef} {Q : TypeRef → Prop}
    (htype : type.isNonNull = false)
    (hlist : ∀ inner, type = .list inner → Takes list type.tokens Any (· = type))
    (hmark : Takes (marked type) ts Next Q) : Takes (typeWith list) (type.tokens ++ ts) Next Q := by
  cases type with
  | named name =>
      refine .peek? ?_
      dsimp only
      refine (Takes.skip _).next fun _ _ => (Takes.pure (P := (· = .named name)) rfl).next ?_
      rintro _ rfl
      exact hmark
  | list inner =>
      refine .peek? ?_
      dsimp only
      refine (hlist inner rfl).next ?_
      rintro _ rfl
      exact hmark
  | nonNull inner => cases htype

theorem takes_typeWith_all {list : Parser TypeRef} {type : TypeRef} (h : type.Formed room)
    (hlist : ∀ inner, (TypeRef.list inner).Formed room →
      Takes list (TypeRef.list inner).tokens Any (· = .list inner)) :
    Takes (typeWith list) type.tokens (Avoids ['!']) (· = type) := by
  cases type with
  | named name =>
      rw [← List.append_nil (TypeRef.tokens _)]
      exact takes_typeWith rfl nofun (takes_noMark _)
  | list inner =>
      rw [← List.append_nil (TypeRef.tokens _)]
      exact takes_typeWith rfl (fun _ _ => hlist inner h) (takes_noMark _)
  | nonNull type =>
      refine (takes_typeWith h.1 ?_ (takes_mark type)).mono (fun _ h => h) fun _ _ => trivial
      rintro inner rfl
      exact hlist inner h.2

theorem takes_type {type : TypeRef} (h : type.Formed room) :
    Takes (Grammar.type room) type.tokens (Avoids ['!']) (· = type) := by
  induction room generalizing type with
  | zero =>
      refine takes_typeWith_all h ?_
      rintro inner ⟨_, hroom, _⟩
      cases hroom
  | succ room ih =>
      refine takes_typeWith_all h ?_
      rintro inner ⟨_, hroom, hinner⟩
      cases hroom
      exact (takes_bracketed (ih hinner) (by simp [Avoids])).map fun a ha =>
        congrArg TypeRef.list ha

/-! ### Values -/

theorem takes_atom {list object : Parser Value} {t : Token} {v : Value} (h : t.value? = some v) :
    Takes (valueWith constant list object) [some t] Any (· = v) := by
  refine .peek? ?_
  cases t with
  | symbol c => cases h
  | spread => cases h
  | _ =>
      cases h
      exact (Takes.skip _).map fun _ _ => rfl

/-- A literal is taken for what it is read as. -/
theorem takes_literal (hread : read.Atomic) {list object : Parser Value} (literal : Value) :
    Takes (valueWith constant list object) [read indent literal] Any
      (· = rereadLiteral read indent literal) := by
  cases h : read indent literal with
  | none =>
      intro ls us hls _
      obtain ⟨l, _, _, hl, _⟩ := tokensOf_eq_cons hls
      cases hl
  | some t =>
      obtain ⟨v, hv⟩ := Option.isSome_iff_exists.mp (hread indent literal t h)
      rw [rereadLiteral, h, Option.bind_some, hv, Option.getD_some]
      exact takes_atom hv

/-- A value begins with a token that the grammar looks for. -/
theorem begins_value (hread : read.Atomic) (v : Value) :
    Begins startsValue (v.tokens read indent) := by
  have hliteral : ∀ literal, Begins startsValue [read indent literal] := by
    refine fun literal => ⟨_, _, rfl, fun t ht => ?_⟩
    have := hread indent literal t ht
    cases t with
    | symbol c => cases this
    | spread => cases this
    | _ => rfl
  cases v with
  | int n => exact hliteral _
  | float x => exact hliteral _
  | string s => exact hliteral _
  | _ => exact begins_cons rfl

theorem rereadItems_eq (vs : List Value) :
    rereadItems read indent vs = vs.map (Value.reread read indent) := by
  induction vs with
  | nil => rfl
  | cons v vs ih => rw [rereadItems, ih, List.map_cons]

theorem rereadFields_eq (fields : List (String × Value)) :
    rereadFields read indent fields = fields.map fun f => (f.1, f.2.reread read indent) := by
  induction fields with
  | nil => rfl
  | cons f fields ih => rw [rereadFields, ih, List.map_cons]

theorem takes_labelled {k : String} (hp : Takes p ts Any P) :
    Takes (labelled p) (some (.name k) :: some (.symbol ':') :: ts) Any
      fun x => x.1 = k ∧ P x.2 :=
  (Takes.name k).next fun _ hs => (Takes.symbol ':').next fun _ _ => hp.map fun _ ha => ⟨hs, ha⟩

/-- Fields with names in order are set one behind the other. -/
theorem insertField_last {k : String} {v : Value} {fields : List (String × Value)}
    (h : ∀ f ∈ fields, f.1 < k) : Value.insertField k v fields = fields ++ [(k, v)] := by
  induction fields with
  | nil => rfl
  | cons f fields ih =>
      obtain ⟨k', v'⟩ := f
      rw [List.forall_mem_cons] at h
      have hne : k ≠ k' := by
        rintro rfl
        exact String.lt_irrefl _ h.1
      rw [Value.insertField, if_neg (String.lt_asymm h.1), if_neg hne, ih h.2, List.cons_append]

theorem foldl_insertField (sorted : List (String × Value)) {fields : List (String × Value)}
    (h : ((sorted ++ fields).map (·.1)).Pairwise (· < ·)) :
    fields.foldl (fun fs f => Value.insertField f.1 f.2 fs) sorted = sorted ++ fields := by
  induction fields generalizing sorted with
  | nil => rw [List.foldl_nil, List.append_nil]
  | cons f fields ih =>
      have hlast : ∀ f' ∈ sorted, f'.1 < f.1 := by
        rw [List.map_append, List.map_cons, List.pairwise_append] at h
        exact fun f' hf' => h.2.2 _ (List.mem_map_of_mem hf') _ List.mem_cons_self
      rw [List.foldl_cons, insertField_last hlast, ih (sorted ++ [f]), List.append_assoc,
        List.singleton_append]
      rwa [List.append_assoc, List.singleton_append]

theorem takes_valueWith (hread : read.Atomic) {list object : Parser Value} {v : Value}
    (h : v.Formed constant room)
    (hlist : ∀ items, (Value.list items).Formed constant room →
      Takes list ((Value.list items).tokens read indent) Any
        (· = (Value.list items).reread read indent))
    (hobject : ∀ fields, (Value.object fields).Formed constant room →
      Takes object ((Value.object fields).tokens read indent) Any
        (· = (Value.object fields).reread read indent)) :
    Takes (valueWith constant list object) (v.tokens read indent) Any
      (· = v.reread read indent) := by
  cases v with
  | int n => exact takes_literal hread _
  | float x => exact takes_literal hread _
  | string s => exact takes_literal hread _
  | «variable» name =>
      obtain ⟨rfl, _⟩ := h
      refine .peek? ((Takes.skip _).next fun _ _ => ?_)
      exact (Takes.name name).map fun _ hs => congrArg Value.variable hs
  | boolean b =>
      cases b with
      | true => exact takes_atom rfl
      | false => exact takes_atom rfl
  | null => exact takes_atom rfl
  | enum name => exact takes_atom (congrArg some h.2)
  | list items => exact .peek? (hlist items h)
  | object fields => exact .peek? (hobject fields h)

theorem takes_field {f : String × Value} {p : Parser Value}
    (hp : Takes p (f.2.tokens read indent) Any (· = f.2.reread read indent)) :
    Takes (labelled p) (some (.name f.1) :: some (.symbol ':') :: f.2.tokens read indent) Any
      (· = (f.1, f.2.reread read indent)) :=
  (takes_labelled hp).mono (fun _ hx => Prod.ext hx.1 hx.2) fun _ h => h

/-- The grammar takes the tokens of a value and gives the value as it is read. -/
theorem takes_value (hread : read.Atomic) {v : Value} (h : v.Formed constant room) :
    Takes (value constant room) (v.tokens read indent) Any (· = v.reread read indent) := by
  induction room generalizing v with
  | zero =>
      refine takes_valueWith hread h ?_ ?_
      · rintro items ⟨_, hroom, _⟩
        cases hroom
      · rintro fields ⟨_, hroom, _⟩
        cases hroom
  | succ room ih =>
      refine takes_valueWith hread h ?_ ?_
      · rintro items ⟨_, hroom, hitems⟩
        cases hroom
        rw [Value.tokens, Value.reread, itemTokens_eq, rereadItems_eq]
        have hmany := Takes.many_eq (p := value constant room) (Value.reread read indent)
          (fun v hv => ih (formedItems_iff.mp hitems v hv)) (fun v _ => begins_value hread v)
          fun _ _ => trivial
        exact (takes_bracketed hmany ⟨trivial, rfl⟩).map fun _ has => congrArg Value.list has
      · rintro fields ⟨_, hroom, hsorted, hfields⟩
        cases hroom
        have hfold : (rereadFields read indent fields).foldl
            (fun fs f => Value.insertField f.1 f.2 fs) [] = rereadFields read indent fields := by
          refine foldl_insertField [] ?_
          rw [List.nil_append, rereadFields_eq, List.map_map]
          exact hsorted
        rw [Value.tokens, Value.reread, ← hfold, fieldTokens_eq, rereadFields_eq]
        have hmany := Takes.many_eq (p := labelled (value constant room))
          (fun f => (f.1, f.2.reread read indent))
          (fun f hf => takes_field (ih (formedFields_iff.mp hfields f hf).2))
          (fun f _ => begins_cons (show isName (.name f.1) from rfl)) fun _ _ => trivial
        refine (takes_bracketed hmany ⟨trivial, rfl⟩).map ?_
        rintro _ rfl
        rfl

/-! ### Arguments and directives -/

theorem takes_arguments? (hread : read.Atomic) {arguments : Arguments}
    (h : FormedArguments arguments room) :
    Takes (arguments? room) (argumentTokens read indent arguments) (Avoids ['('])
      (· = rereadFields read indent arguments) := by
  unfold argumentTokens
  split
  · rename_i hempty
    subst hempty
    exact .missing (.pure rfl) fun _ h => h.mono fun t ht => beq_false_of_ne (ht '(' (by simp))
  · rename_i hempty
    obtain ⟨inner, rfl, hfields⟩ := h.resolve_left hempty
    rw [fieldTokens_eq, rereadFields_eq]
    have hmany := Takes.many1_eq (p := labelled (value false inner))
      (fun f => (f.1, f.2.reread read indent)) hempty
      (fun f hf => takes_field (takes_value hread (formedFields_iff.mp hfields f hf).2))
      (fun f _ => begins_cons (show isName (.name f.1) from rfl)) fun _ _ => trivial
    refine ((takes_bracketed hmany ⟨trivial, rfl⟩).optional (begins_cons rfl)).map ?_ |>.mono
      (fun _ h => h) fun _ _ => trivial
    rintro _ ⟨_, rfl, rfl⟩
    rfl

theorem takes_directive (hread : read.Atomic) {d : Directive} (h : d.Formed room) :
    Takes (directive room) (d.tokens read indent) (Avoids ['(']) (· = d.reread read indent) := by
  refine (Takes.symbol '@').next fun _ _ => (Takes.name d.name).next ?_
  rintro _ rfl
  exact (takes_arguments? hread h.arguments).map fun _ has => congrArg (Directive.mk d.name) has

theorem takes_directives (hread : read.Atomic) {ds : List Directive}
    (h : ∀ d ∈ ds, d.Formed room) :
    Takes (directives room) (directiveTokens read indent ds) (Avoids ['(', '@'])
      (· = ds.map (Directive.reread read indent)) := by
  have hagain : ∀ t, isSymbol '@' t → Avoids ['('] t := by
    intro t ht
    rw [beq_iff_eq.mp ht]
    simp [Avoids]
  refine (Takes.many_eq (Directive.reread read indent) (fun d hd => takes_directive hread (h d hd))
    (fun d _ => begins_cons rfl) hagain).mono (fun _ h => h) fun t ht => ?_
  exact ⟨Avoids.mono ht (by simp), beq_false_of_ne (ht '@' (by simp))⟩

theorem follows_arguments {arguments : Arguments} (h : Next (.symbol '(')) (hus : Follows Next us) :
    Follows Next (argumentTokens read indent arguments ++ us) := by
  unfold argumentTokens
  split
  · exact hus
  · exact follows_cons h

theorem follows_directives {ds : List Directive} (h : Next (.symbol '@'))
    (hus : Follows Next us) : Follows Next (directiveTokens read indent ds ++ us) := by
  cases ds with
  | nil => exact hus
  | cons d ds => exact follows_cons h

/-! ### Selections -/

theorem rereadAll_eq (ss : List Selection) :
    rereadAll read indent ss = ss.map (Selection.reread read indent) := by
  induction ss with
  | nil => rfl
  | cons s ss ih => rw [rereadAll, ih, List.map_cons]

theorem selectionTokens_eq (ss : List Selection) :
    selectionTokens read indent ss = ss.flatMap (Selection.tokens read indent) := by
  induction ss with
  | nil => rfl
  | cons s ss ih => rw [selectionTokens, ih, List.flatMap_cons]

/-- Selections are taken as they are read. -/
abbrev TakesSet (set : Parser (List Selection)) (read : Reading) (indent : Nat)
    (ss : List Selection) : Prop :=
  Takes set (setTokens read indent ss) Any
    fun as => rereadAll unread (indent + 2) as = rereadAll read (indent + 2) ss

/-- The tokens of selections that may be missing. -/
abbrev blockTokens (read : Reading) (indent : Nat) (ss : List Selection) : List (Option Token) :=
  if ss.isEmpty then [] else setTokens read indent ss

theorem follows_block {ss : List Selection} (h : Next (.symbol '\x7b')) (hus : Follows Next us) :
    Follows Next (blockTokens read indent ss ++ us) := by
  unfold blockTokens
  split
  · exact hus
  · exact follows_cons h

theorem takes_block {set : Parser (List Selection)} {ss : List Selection}
    (h : ss ≠ [] → TakesSet set read indent ss) :
    Takes (optional (isSymbol '\x7b') set) (blockTokens read indent ss) (Avoids ['\x7b'])
      fun x => rereadAll unread (indent + 2) (x.getD []) = rereadAll read (indent + 2) ss := by
  unfold blockTokens
  split
  · rename_i hempty
    rw [List.isEmpty_iff.mp hempty]
    refine Takes.absent.mono ?_ fun t ht => beq_false_of_ne (ht '\x7b' (by simp))
    rintro _ rfl
    rfl
  · rename_i hempty
    refine ((h (mt List.isEmpty_iff.mpr hempty)).optional (begins_cons rfl)).mono ?_ fun _ _ =>
      trivial
    rintro _ ⟨as, rfl, has⟩
    exact has

/-- What follows the names of a field. -/
theorem takes_fieldTail (hread : read.Atomic) {set : Parser (List Selection)}
    (position : Position) (alias? : Option String) (name : String) {arguments : Arguments}
    {ds : List Directive} {ss : List Selection} (harguments : FormedArguments arguments room)
    (hds : ∀ d ∈ ds, d.Formed room) (hset : ss ≠ [] → TakesSet set read indent ss) :
    Takes (do
      let arguments ← arguments? room
      let ds ← directives room
      let ss := (← optional (isSymbol '\x7b') set).getD []
      return Selection.field position alias? name arguments ds ss)
      (argumentTokens read indent arguments ++
        (directiveTokens read indent ds ++ blockTokens read indent ss))
      (Avoids ['(', '@', '\x7b'])
      fun s => s.reread unread indent =
        (Selection.field position alias? name arguments ds ss).reread read indent := by
  refine (takes_arguments? hread harguments).bind ?_ fun vs hvs => ?_
  · rintro _ rfl
    refine (takes_directives hread hds).bind ?_ fun vs hvs => ?_
    · rintro _ rfl
      refine ((takes_block hset).map fun x hx => ?_).mono (fun _ h => h)
        fun t ht => Avoids.mono ht (by simp)
      rw [Selection.reread, Selection.reread, hx, rereadFields_unread, map_reread_unread]
    · exact follows_block (by simp [Avoids]) (hvs.mono fun t ht => Avoids.mono ht (by simp))
  · rw [List.append_assoc]
    refine follows_directives (by simp [Avoids]) (follows_block (by simp [Avoids]) ?_)
    exact hvs.mono fun t ht => Avoids.mono ht (by simp)

/-- Directives and selections behind them. -/
theorem takes_body (hread : read.Atomic) {set : Parser (List Selection)}
    {f : List Directive → List Selection → α} {ds : List Directive} {ss : List Selection}
    (hds : ∀ d ∈ ds, d.Formed room) (hss : TakesSet set read indent ss)
    (hP : ∀ as, rereadAll unread (indent + 2) as = rereadAll read (indent + 2) ss →
      P (f (ds.map (Directive.reread read indent)) as)) :
    Takes (do
      let ds ← directives room
      return f ds (← set))
      (directiveTokens read indent ds ++ setTokens read indent ss) Any P := by
  refine (takes_directives hread hds).bind ?_ fun vs _ => follows_cons (by simp [Avoids])
  rintro _ rfl
  exact hss.map hP

/-- What may not follow a selection. -/
def tailSymbols : List Char := [':', '(', '@', '\x7b']

/-- A selection begins with a token that the grammar looks for. -/
theorem begins_selection (s : Selection) : Begins startsSelection (s.tokens read indent) := by
  cases s with
  | field position alias? name arguments ds ss =>
      cases alias? with
      | none => exact begins_cons rfl
      | some a => exact begins_cons rfl
  | spread position name ds => exact begins_cons rfl
  | inline position condition? ds ss => exact begins_cons rfl

theorem avoids_of_startsSelection {t : Token} (h : startsSelection t) : Avoids tailSymbols t := by
  cases t with
  | name s => simp [Avoids]
  | spread => simp [Avoids]
  | _ => cases h

section Selection

variable {set : Parser (List Selection)} {position : Position} {ds : List Directive}

theorem takes_fieldSelection (hread : read.Atomic) {alias? : Option String} {name : String}
    {arguments : Arguments} {ss : List Selection}
    (h : (Selection.field position alias? name arguments ds ss).Formed room)
    (hset : ∀ ss, FormedSet ss room → TakesSet set read indent ss) :
    Takes (selection room set)
      ((Selection.field position alias? name arguments ds ss).tokens read indent)
      (Avoids tailSymbols)
      fun a => a.reread unread indent =
        (Selection.field position alias? name arguments ds ss).reread read indent := by
  obtain ⟨_, _, harguments, hds, hss⟩ := h
  have hinner : ss ≠ [] → TakesSet set read indent ss := fun hne => hset ss (hss.resolve_left hne)
  have htail : ∀ position' alias?', Takes _ _ (Avoids tailSymbols) _ :=
    fun position' alias?' =>
      (takes_fieldTail hread position' alias?' name harguments hds hinner).mono
        (fun _ h => h) fun t ht => Avoids.mono ht (by simp [tailSymbols])
  unfold Selection.tokens
  rw [List.append_assoc, List.append_assoc]
  cases alias? with
  | none =>
      refine .peek? (.position fun position' => (Takes.skip _).next fun _ _ => ?_)
      refine .missing (htail position' none) fun us hus => ?_
      -- nothing behind the name is a colon, so the name is not read as an alias
      rw [List.append_assoc, List.append_assoc]
      refine follows_arguments rfl (follows_directives rfl (follows_block rfl ?_))
      exact hus.mono fun t ht => beq_false_of_ne (ht ':' (by simp [tailSymbols]))
  | some a =>
      refine .peek? (.position fun position' => (Takes.skip _).next fun _ _ => ?_)
      have hname :
        Takes (do symbol ':'; Parser.name) (some (.symbol ':') :: [some (.name name)])
          Any (· = name) := (Takes.symbol ':').next fun _ _ => Takes.name name
      refine (hname.optional (begins_cons rfl)).next ?_
      rintro _ ⟨_, rfl, rfl⟩
      exact htail position' (some a)

theorem takes_spread (hread : read.Atomic) {name : String}
    (h : (Selection.spread position name ds).Formed room) :
    Takes (selection room set) ((Selection.spread position name ds).tokens read indent)
      (Avoids tailSymbols)
      fun a => a.reread unread indent =
        (Selection.spread position name ds).reread read indent := by
  obtain ⟨_, hname, hds⟩ := h
  refine .peek? ((Takes.skip _).next fun _ _ => .position fun position' => .peek? ?_)
  -- a name that is not `on` names a fragment
  split
  · rename_i heq
    exact absurd (Token.name.inj (Option.some.inj heq)) hname
  · rename_i heq
    cases heq
    refine (Takes.skip _).next fun _ _ => ((takes_directives hread hds).map ?_).mono
      (fun _ h => h) fun t ht => Avoids.mono ht (by simp [tailSymbols])
    rintro _ rfl
    rw [Selection.reread, Selection.reread, map_reread_unread]
  · rename_i heq
    cases heq
  · rename_i hother _
    exact absurd rfl (hother name)

theorem takes_inline (hread : read.Atomic) {condition? : Option String} {ss : List Selection}
    (h : (Selection.inline position condition? ds ss).Formed room)
    (hset : ∀ ss, FormedSet ss room → TakesSet set read indent ss) :
    Takes (selection room set) ((Selection.inline position condition? ds ss).tokens read indent)
      (Avoids tailSymbols)
      fun a => a.reread unread indent =
        (Selection.inline position condition? ds ss).reread read indent := by
  obtain ⟨_, hds, hss⟩ := h
  have hbody : ∀ position', Takes (do
      let ds ← directives room
      return Selection.inline position' condition? ds (← set))
      (directiveTokens read indent ds ++ setTokens read indent ss) (Avoids tailSymbols)
      fun a => a.reread unread indent =
        (Selection.inline position condition? ds ss).reread read indent := by
    intro position'
    refine (takes_body hread hds (hset ss hss) fun as has => ?_).mono (fun _ h => h)
      fun _ _ => trivial
    rw [Selection.reread, Selection.reread, map_reread_unread, has]
  refine .peek? ((Takes.skip _).next fun _ _ => .position fun position' => ?_)
  cases condition? with
  | some condition =>
      refine .peek? ((Takes.skip _).next fun _ _ => (Takes.name condition).next ?_)
      rintro _ rfl
      exact hbody position'
  | none =>
      -- the token that the parser looks at is that of a directive or of the selections
      cases ds with
      | nil => exact .peek? (hbody position')
      | cons d ds => exact .peek? (hbody position')

theorem takes_selection (hread : read.Atomic) {s : Selection} (h : s.Formed room)
    (hset : ∀ ss, FormedSet ss room → TakesSet set read indent ss) :
    Takes (selection room set) (s.tokens read indent) (Avoids tailSymbols)
      fun a => a.reread unread indent = s.reread read indent := by
  cases s with
  | field position alias? name arguments ds ss => exact takes_fieldSelection hread h hset
  | spread position name ds => exact takes_spread hread h
  | inline position condition? ds ss => exact takes_inline hread h hset

end Selection

theorem takes_selectionSet (hread : read.Atomic) {ss : List Selection} (h : FormedSet ss room) :
    TakesSet (selectionSet room) read indent ss := by
  induction room generalizing ss indent with
  | zero =>
      obtain ⟨inner, hroom, _⟩ := h
      cases hroom
  | succ room ih =>
      obtain ⟨inner, hroom, hne, hall⟩ := h
      cases hroom
      have hmany := Takes.many1 (Selection.reread unread (indent + 2))
        (Selection.reread read (indent + 2)) hne
        (fun s hs => takes_selection hread (formedAll_iff.mp hall s hs) fun _ h => ih h)
        (fun s _ => begins_selection s) fun t ht => avoids_of_startsSelection ht
      rw [← selectionTokens_eq, ← rereadAll_eq] at hmany
      exact takes_bracketed (hmany.mono (fun as has => (rereadAll_eq as).trans has) fun _ h => h)
        ⟨by simp [Avoids, tailSymbols], rfl⟩

/-! ### Definitions -/

theorem takes_default? (hread : read.Atomic) {v : VariableDefinition} (h : v.Formed room) :
    Takes (optional (isSymbol '=') do
      symbol '='
      value true room)
      (match v.default? with
        | some d => some (.symbol '=') :: d.tokens read 0
        | none => [])
      (Avoids ['=']) (· = v.default?.map (Value.reread read 0)) := by
  cases hd : v.default? with
  | none => exact Takes.absent.mono (fun _ h => h) fun t ht => beq_false_of_ne (ht '=' (by simp))
  | some d =>
      refine (((Takes.symbol '=').next fun _ _ => takes_value hread (h.default? d hd)).optional
        (begins_cons rfl)).mono ?_ fun _ _ => trivial
      rintro _ ⟨_, rfl, rfl⟩
      rfl

theorem takes_variableDefinition (hread : read.Atomic) {v : VariableDefinition}
    (h : v.Formed room) :
    Takes (variableDefinition room) (v.tokens read) (Avoids ['!', '=']) (· = v.reread read) := by
  refine (Takes.symbol '$').next fun _ _ => (Takes.name v.name).next ?_
  rintro _ rfl
  refine (Takes.symbol ':').next fun _ _ => (takes_type h.type).bind ?_ fun vs hvs => ?_
  · rintro _ rfl
    refine ((takes_default? hread h).map ?_).mono (fun _ h => h)
      fun t ht => Avoids.mono ht (by simp)
    rintro _ rfl
    rfl
  · split
    · exact follows_cons (by simp [Avoids])
    · exact hvs.mono fun t ht => Avoids.mono ht (by simp)

theorem takes_variableDefinitions? (hread : read.Atomic) {vs : List VariableDefinition}
    (h : vs = [] ∨ ∃ inner, room = inner + 1 ∧ ∀ v ∈ vs, v.Formed inner) :
    Takes (optional (isSymbol '(') (variableDefinitions room)) (variableTokens read vs)
      (Avoids ['(']) fun x => x.getD [] = vs.map (VariableDefinition.reread read) := by
  unfold variableTokens
  split
  · rename_i hempty
    subst hempty
    refine Takes.absent.mono ?_ fun t ht => beq_false_of_ne (ht '(' (by simp))
    rintro _ rfl
    rfl
  · rename_i hempty
    obtain ⟨inner, rfl, hvs⟩ := h.resolve_left hempty
    have hagain : ∀ t, isSymbol '$' t → Avoids ['!', '='] t := by
      intro t ht
      rw [beq_iff_eq.mp ht]
      simp [Avoids]
    have hmany := Takes.many1_eq (VariableDefinition.reread read) hempty
      (fun v hv => takes_variableDefinition hread (hvs v hv)) (fun v _ => begins_cons rfl) hagain
    refine ((takes_bracketed hmany ⟨by simp [Avoids], rfl⟩).optional (begins_cons rfl)).mono ?_
      fun _ _ => trivial
    rintro _ ⟨_, rfl, rfl⟩
    rfl

theorem follows_variables {vs : List VariableDefinition} (h : Next (.symbol '('))
    (hus : Follows Next us) : Follows Next (variableTokens read vs ++ us) := by
  unfold variableTokens
  split
  · exact hus
  · exact follows_cons h

theorem reread_taken (d : OperationDefinition) {position : Position} {ss : List Selection}
    (hss : rereadAll unread 2 ss = rereadAll read 2 d.selections) :
    OperationDefinition.reread unread (.mk position d.kind d.name?
      (d.shown.map (VariableDefinition.reread read)) (d.directives.map (Directive.reread read 0))
      ss) = d.reread read := by
  unfold OperationDefinition.reread
  rw [map_reread_unread, map_variables_unread, hss]
  congr 1
  unfold OperationDefinition.shown
  dsimp only
  split
  · rfl
  · rfl

theorem takes_name? (name? : Option String) :
    Takes (optional isName Parser.name) (name?.toList.map (some ∘ .name))
    (fun t => isName t = false)
      (· = name?) := by
  cases name? with
  | none => exact .absent
  | some name =>
      refine ((Takes.name name).optional (begins_cons rfl)).mono ?_ fun _ _ => trivial
      rintro _ ⟨_, rfl, rfl⟩
      rfl

theorem takes_operation (hread : read.Atomic) {d : OperationDefinition} (h : d.Formed room)
    (position : Position) :
    Takes (operation room position d.kind)
      (d.name?.toList.map (some ∘ .name) ++ (variableTokens read d.shown ++
        (directiveTokens read 0 d.directives ++ setTokens read 0 d.selections))) Any
      fun y => y.reread unread = d.reread read := by
  have hshown : d.shown = [] ∨ ∃ inner, room = inner + 1 ∧ ∀ v ∈ d.shown, v.Formed inner := by
    unfold OperationDefinition.shown
    split
    · exact .inl rfl
    · exact h.variableDefinitions
  refine (takes_name? d.name?).bind ?_ fun vs _ => ?_
  · rintro _ rfl
    refine (takes_variableDefinitions? hread hshown).bind (fun x hx => ?_) fun vs _ => ?_
    · dsimp only
      rw [hx]
      exact takes_body hread h.directives (takes_selectionSet hread h.selections)
        fun as has => reread_taken d has
    · rw [List.append_assoc]
      exact follows_directives (by simp [Avoids]) (follows_cons (by simp [Avoids]))
  · rw [List.append_assoc, List.append_assoc]
    exact follows_variables rfl (follows_directives rfl (follows_cons rfl))

theorem takes_fragment (hread : read.Atomic) {d : FragmentDefinition} (h : d.Formed room)
    (position : Position) :
    Takes (fragment room position)
      (some (.name d.name) :: some (.name "on") :: some (.name d.condition) ::
        (directiveTokens read 0 d.directives ++ setTokens read 0 d.selections)) Any
      fun y => y.reread unread = d.reread read := by
  refine (Takes.name d.name).next ?_
  rintro _ rfl
  refine (Takes.expect (.name "on")).next fun _ _ => (Takes.name d.condition).next ?_
  rintro _ rfl
  refine takes_body hread h.directives (takes_selectionSet hread h.selections) fun as has => ?_
  unfold FragmentDefinition.reread
  rw [map_reread_unread, has]

/-- The grammar takes the tokens of a definition and gives the definition as it is read. -/
theorem takes_definition (hread : read.Atomic) {x : Definition} (h : x.Formed room) :
    Takes (definition room) (x.tokens read) Any fun y => y.reread unread = x.reread read := by
  cases x with
  | shorthand position ss =>
      refine .position fun position' => .peek? ?_
      exact (takes_selectionSet hread h).map fun as has =>
        congrArg (Definition.shorthand .start) has
  | operation d =>
      refine .position fun position' => .peek? ?_
      split
      · rename_i heq
        cases heq
      · rename_i heq
        cases hkind : d.kind <;> simp [hkind, OperationKind.keyword] at heq
      · rename_i heq
        cases heq
        rw [OperationKind.ofKeyword?_keyword]
        refine (Takes.skip _).next fun _ _ => ?_
        have htail := takes_operation hread h position'
        rw [← List.append_assoc, ← List.append_assoc] at htail
        exact htail.map fun _ has => congrArg Definition.operation has
      · rename_i hother
        exact absurd rfl (hother _)
  | fragment d =>
      refine .position fun position' => .peek? ((Takes.skip _).next fun _ _ => ?_)
      exact (takes_fragment hread h position').map fun _ has => congrArg Definition.fragment has

end Grammar

end Composables.Graphql
