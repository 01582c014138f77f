import Composables.Graphql.Grammar
import Composables.Proofs.Decimal.Nearest
import Composables.Proofs.Outcome

/-
  What a parsed document is like: its names are words, its integers fit, its floats are in normal
  form, objects have their fields in order, and no more brackets are open at once than the grammar
  has room for (`formed_of_parse`). All this comes from the tokens of the text and from the parsers
  that take them.
-/

namespace Composables.Graphql

open Decimal (Binary64)

/-! ## Names and numbers -/

/-- A letter or an underscore, and behind it letters, digits and underscores. -/
def IsName (s : String) : Prop :=
  ∃ c cs, s.toList = c :: cs ∧ Token.isNameStart c ∧ ∀ d ∈ cs, Token.isNameChar d

theorem isName_of {s : String} {c : Char} {cs : List Char} (hs : s.toList = c :: cs)
    (h : (Token.isNameStart c && cs.all Token.isNameChar) = true) : IsName s := by
  rw [Bool.and_eq_true, List.all_eq_true] at h
  exact ⟨c, cs, hs, h.1, h.2⟩

/-- Whether an integer fits 64 bits with a sign. -/
def Fits (n : ℤ) : Prop := -Numeral.int?.limit ≤ n ∧ n < Numeral.int?.limit

/-- What is known of a token that was cut off a text. -/
def Token.Sound : Token → Prop
  | .name s => IsName s
  | .int n => Fits n
  | .float x => x.Normal
  | _ => True

/-! ## Trees -/

mutual

/-- Whether a value is one that the grammar gives with room for so many brackets. -/
def Value.Formed (constant : Bool) : Value → ℕ → Prop
  | .variable name, _ => constant = false ∧ IsName name
  | .int n, _ => Fits n
  | .float x, _ => x.Normal
  | .enum name, _ => IsName name ∧ Grammar.ofName name = .enum name
  | .list items, room => ∃ inner, room = inner + 1 ∧ FormedItems constant items inner
  | .object fields, room =>
    ∃ inner, room = inner + 1 ∧ (fields.map (·.1)).Pairwise (· < ·) ∧
      FormedFields constant fields inner
  | _, _ => True

def FormedItems (constant : Bool) : List Value → ℕ → Prop
  | [], _ => True
  | v :: vs, room => v.Formed constant room ∧ FormedItems constant vs room

def FormedFields (constant : Bool) : List (String × Value) → ℕ → Prop
  | [], _ => True
  | (k, v) :: fields, room => (IsName k ∧ v.Formed constant room) ∧
      FormedFields constant fields room

end

def FormedArguments (arguments : Arguments) (room : ℕ) : Prop :=
  arguments = [] ∨ ∃ inner, room = inner + 1 ∧ FormedFields false arguments inner

structure Directive.Formed (d : Directive) (room : ℕ) : Prop where
  name : IsName d.name
  arguments : FormedArguments d.arguments room

def TypeRef.Formed : TypeRef → ℕ → Prop
  | .named name, _ => IsName name
  | .list type, room => ∃ inner, room = inner + 1 ∧ type.Formed inner
  | .nonNull type, room => type.isNonNull = false ∧ type.Formed room

mutual

def Selection.Formed : Selection → ℕ → Prop
  | .field _ alias? name arguments directives selections, room =>
    (∀ a ∈ alias?, IsName a) ∧ IsName name ∧ FormedArguments arguments room ∧
      (∀ d ∈ directives, d.Formed room) ∧
      (selections = [] ∨ ∃ inner, room = inner + 1 ∧ selections ≠ [] ∧ FormedAll selections inner)
  | .spread _ name directives, room =>
    IsName name ∧ name ≠ "on" ∧ ∀ d ∈ directives, d.Formed room
  | .inline _ condition? directives selections, room =>
    (∀ c ∈ condition?, IsName c) ∧ (∀ d ∈ directives, d.Formed room) ∧
      ∃ inner, room = inner + 1 ∧ selections ≠ [] ∧ FormedAll selections inner

def FormedAll : List Selection → ℕ → Prop
  | [], _ => True
  | s :: ss, room => s.Formed room ∧ FormedAll ss room

end

/-- Selections between braces are not empty. -/
def FormedSet (selections : List Selection) (room : ℕ) : Prop :=
  ∃ inner, room = inner + 1 ∧ selections ≠ [] ∧ FormedAll selections inner

structure VariableDefinition.Formed (v : VariableDefinition) (room : ℕ) : Prop where
  name : IsName v.name
  type : v.type.Formed room
  default? : ∀ d ∈ v.default?, d.Formed true room

structure OperationDefinition.Formed (d : OperationDefinition) (room : ℕ) : Prop where
  name? : ∀ n ∈ d.name?, IsName n
  variableDefinitions : d.variableDefinitions = [] ∨
    ∃ inner, room = inner + 1 ∧ ∀ v ∈ d.variableDefinitions, v.Formed inner
  directives : ∀ x ∈ d.directives, x.Formed room
  selections : FormedSet d.selections room

structure FragmentDefinition.Formed (d : FragmentDefinition) (room : ℕ) : Prop where
  name : IsName d.name
  condition : IsName d.condition
  directives : ∀ x ∈ d.directives, x.Formed room
  selections : FormedSet d.selections room

def Definition.Formed : Definition → ℕ → Prop
  | .shorthand _ selections, room => FormedSet selections room
  | .operation d, room => d.Formed room
  | .fragment d, room => d.Formed room

section Lists

variable {constant : Bool} {room : ℕ}

theorem formedItems_iff {vs : List Value} :
    FormedItems constant vs room ↔ ∀ v ∈ vs, v.Formed constant room := by
  induction vs with
  | nil => simp [FormedItems]
  | cons v vs ih => simp [FormedItems, ih]

theorem formedFields_iff {fields : List (String × Value)} :
    FormedFields constant fields room ↔ ∀ f ∈ fields, IsName f.1 ∧ f.2.Formed constant room := by
  induction fields with
  | nil => simp [FormedFields]
  | cons f fields ih => simp [FormedFields, ih]

theorem formedAll_iff {ss : List Selection} : FormedAll ss room ↔ ∀ s ∈ ss, s.Formed room := by
  induction ss with
  | nil => simp [FormedAll]
  | cons s ss ih => simp [FormedAll, ih]

end Lists

/-! ## Objects -/

theorem mem_insertField {k : String} {v : Value} {f : String × Value}
    {fields : List (String × Value)} (h : f ∈ Value.insertField k v fields) :
    f = (k, v) ∨ f ∈ fields := by
  induction fields with
  | nil => exact .inl (List.mem_singleton.mp h)
  | cons f' fields ih =>
      obtain ⟨k', v'⟩ := f'
      unfold Value.insertField at h
      split at h
      · exact List.mem_cons.mp h
      · split at h
        · exact (List.mem_cons.mp h).imp_right (List.mem_cons_of_mem _)
        · rcases List.mem_cons.mp h with rfl | h
          · exact .inr List.mem_cons_self
          · exact (ih h).imp_right (List.mem_cons_of_mem _)

/-- Setting a field keeps the fields in order. -/
theorem pairwise_insertField {k : String} {v : Value} {fields : List (String × Value)}
    (h : (fields.map (·.1)).Pairwise (· < ·)) :
    ((Value.insertField k v fields).map (·.1)).Pairwise (· < ·) := by
  induction fields with
  | nil => exact List.pairwise_singleton _ _
  | cons f fields ih =>
      obtain ⟨k', v'⟩ := f
      rw [List.map_cons, List.pairwise_cons] at h
      unfold Value.insertField
      split
      · rename_i hlt
        rw [List.map_cons, List.map_cons, List.pairwise_cons]
        refine ⟨?_, List.pairwise_cons.mpr h⟩
        intro l hl
        rcases List.mem_cons.mp hl with rfl | hl
        · exact hlt
        · exact String.lt_trans hlt (h.1 l hl)
      · split
        · rename_i heq
          rw [List.map_cons, List.pairwise_cons, heq]
          exact h
        · rename_i hlt hne
          rw [List.map_cons, List.pairwise_cons]
          refine ⟨?_, ih h.2⟩
          intro l hl
          obtain ⟨f, hf, rfl⟩ := List.mem_map.mp hl
          rcases mem_insertField hf with rfl | hf
          · by_contra hge
            exact hne (String.le_antisymm (String.not_lt.mp hge) (String.not_lt.mp hlt))
          · exact h.1 _ (List.mem_map_of_mem hf)

theorem formed_foldl {constant : Bool} {room : ℕ} {fields sorted : List (String × Value)}
    (hsorted : (sorted.map (·.1)).Pairwise (· < ·)) (h : FormedFields constant sorted room)
    (hfields : ∀ f ∈ fields, IsName f.1 ∧ f.2.Formed constant room) :
    let set := fields.foldl (fun fs f => Value.insertField f.1 f.2 fs) sorted
    (set.map (·.1)).Pairwise (· < ·) ∧ FormedFields constant set room := by
  dsimp only
  induction fields generalizing sorted with
  | nil => exact ⟨hsorted, h⟩
  | cons f fields ih =>
      rw [List.forall_mem_cons] at hfields
      refine ih (pairwise_insertField hsorted) (formedFields_iff.mpr ?_) hfields.2
      intro f' hf'
      rcases mem_insertField hf' with rfl | hf'
      · exact hfields.1
      · exact formedFields_iff.mp h f' hf'

/-! ## Tokens -/

theorem Numeral.fits_of_int? {cs : List Char} {n : ℤ} (h : int? cs = some n) : Fits n := by
  obtain ⟨⟨negative, ds⟩, _, h⟩ := Option.bind_eq_some_iff.mp h
  obtain ⟨hfits, h⟩ := Option.ite_none_right_eq_some.mp h
  exact Option.some.inj h ▸ hfits

theorem Numeral.normal_of_float? {cs : List Char} {x : Binary64} (h : float? cs = some x) :
    x.Normal := by
  unfold float? at h
  dsimp only at h
  split at h
  all_goals
    obtain ⟨e, _, h⟩ := Option.bind_eq_some_iff.mp h
    obtain ⟨⟨negative, ds⟩, _, h⟩ := Option.bind_eq_some_iff.mp h
    dsimp only at h
    split at h
    all_goals
      obtain ⟨fs, _, h⟩ := Option.bind_eq_some_iff.mp h
      cases h
      exact Binary64.normal_ofScientific _ _ _

theorem Token.sound_of_ofNumeral? {cs : List Char} {token : Token}
    (h : ofNumeral? cs = some token) : token.Sound := by
  unfold ofNumeral? at h
  split at h
  · obtain ⟨x, hx, rfl⟩ := Option.map_eq_some_iff.mp h
    exact Numeral.normal_of_float? hx
  · obtain ⟨n, hn, rfl⟩ := Option.map_eq_some_iff.mp h
    exact Numeral.fits_of_int? hn

/-- What a token that is cut off a text is like. -/
theorem Token.sound_of_cut? {cs : List Char} {cut : Token.Cut} (h : Token.cut? cs = some cut) :
    cut.token.Sound := by
  unfold Token.cut? at h
  split at h
  · cases h
  · cases h
    trivial
  · obtain ⟨⟨inner, rest⟩, _, h⟩ := Option.bind_eq_some_iff.mp h
    cases h
    trivial
  · obtain ⟨⟨inner, rest⟩, _, h⟩ := Option.bind_eq_some_iff.mp h
    obtain ⟨token, htoken, h⟩ := Option.bind_eq_some_iff.mp h
    cases h
    obtain ⟨_, _, rfl⟩ := Option.map_eq_some_iff.mp htoken
    trivial
  · split at h
    · cases h
      trivial
    · split at h
      · rename_i hstart
        cases h
        refine ⟨_, _, String.toList_ofList, hstart, fun d hd => ?_⟩
        exact List.all_eq_true.mp List.all_takeWhile d hd
      · split at h
        · obtain ⟨token, htoken, h⟩ := Option.bind_eq_some_iff.mp h
          cases h
          exact sound_of_ofNumeral? htoken
        · cases h

theorem sound_of_scan (cs : List Char) (room : ℕ) (p : Position) :
    ∀ l ∈ (Scan.from room p cs).lexemes, l.token.Sound := by
  induction room generalizing p cs with
  | zero => simp [Scan.from]
  | succ room ih =>
      unfold Scan.from
      split
      · simp
      · split
        · simp
        · rename_i cut hcut
          intro l hl
          rcases List.mem_cons.mp hl with rfl | hl
          · exact Token.sound_of_cut? hcut
          · exact ih _ _ l hl

/-! ## Parsers -/

namespace Parser

variable {α β : Type} {P P' : α → Prop} {Q : β → Prop} {p : Parser α} {starts : Token → Bool}

/-- A parser that is run on tokens that were cut off a text gives results of one kind, and leaves
such tokens. -/
def Gives (P : α → Prop) (p : Parser α) : Prop :=
  ∀ ls a rest, (∀ l ∈ ls, l.token.Sound) → p ls = .ok (a, rest) →
    P a ∧ ∀ l ∈ rest, l.token.Sound

namespace Gives

theorem pure {a : α} (h : P a) : Gives P (Pure.pure a) := by
  intro ls a' rest hls hrun
  cases hrun
  exact ⟨h, hls⟩

theorem bind {f : α → Parser β} (hp : Gives P p) (hf : ∀ a, P a → Gives Q (f a)) :
    Gives Q (p >>= f) := by
  intro ls b rest hls hrun
  obtain ⟨⟨a, mid⟩, ha, hb⟩ := Outcome.bind_eq_ok.mp hrun
  obtain ⟨hPa, hmid⟩ := hp ls a mid hls ha
  exact hf a hPa mid b rest hmid hb

theorem mono (hp : Gives P p) (h : ∀ a, P a → P' a) : Gives P' p := by
  intro ls a rest hls hrun
  obtain ⟨hPa, hrest⟩ := hp ls a rest hls hrun
  exact ⟨h a hPa, hrest⟩

theorem fail : Gives P Parser.fail := by
  intro ls a rest hls hrun
  cases hrun

theorem peek? : Gives (fun o => ∀ t ∈ o, t.Sound) Parser.peek? := by
  intro ls o rest hls hrun
  cases hrun
  refine ⟨fun t ht => ?_, hls⟩
  obtain ⟨l, hl, rfl⟩ := Option.map_eq_some_iff.mp ht
  exact hls l (List.mem_of_mem_head? hl)

theorem skip : Gives (fun _ => True) Parser.skip := by
  intro ls a rest hls hrun
  cases hrun
  exact ⟨trivial, fun l hl => hls l (List.mem_of_mem_tail hl)⟩

theorem position : Gives (fun _ => True) Parser.position := by
  intro ls a rest hls hrun
  cases hrun
  exact ⟨trivial, hls⟩

theorem expect (t : Token) : Gives (fun _ => True) (Parser.expect t) := by
  intro ls a rest hls hrun
  unfold Parser.expect at hrun
  split at hrun
  · split at hrun
    · cases hrun
      exact ⟨trivial, fun l hl => hls l (List.mem_cons_of_mem _ hl)⟩
    · cases hrun
  · cases hrun

theorem accept (t : Token) : Gives (fun _ => True) (Parser.accept t) := by
  intro ls a rest hls hrun
  unfold Parser.accept at hrun
  split at hrun
  · split at hrun
    · cases hrun
      exact ⟨trivial, fun l hl => hls l (List.mem_cons_of_mem _ hl)⟩
    · cases hrun
      exact ⟨trivial, hls⟩
  · cases hrun
    exact ⟨trivial, hls⟩

theorem name : Gives IsName Parser.name := by
  intro ls a rest hls hrun
  unfold Parser.name at hrun
  split at hrun
  · cases hrun
    refine ⟨hls _ List.mem_cons_self, fun l hl => hls l (List.mem_cons_of_mem _ hl)⟩
  · cases hrun

theorem optional (hp : Gives P p) :
    Gives (fun o => ∀ a ∈ o, P a) (Parser.optional starts p) := by
  intro ls o rest hls hrun
  unfold Parser.optional at hrun
  split at hrun
  · split at hrun
    · obtain ⟨⟨a, rest'⟩, ha, hrun⟩ := Outcome.map_eq_ok.mp hrun
      cases hrun
      obtain ⟨hPa, hrest⟩ := hp _ a _ hls ha
      exact ⟨by simpa using hPa, hrest⟩
    · cases hrun
      exact ⟨by simp, hls⟩
  · cases hrun
    exact ⟨by simp, hls⟩

theorem many (hp : Gives P p) : Gives (fun as => ∀ a ∈ as, P a) (Parser.many starts p) := by
  intro ls
  induction ls using Parser.many.induct starts p with
  | case1 =>
      intro as rest hls hrun
      rw [Parser.many] at hrun
      cases hrun
      exact ⟨by simp, hls⟩
  | case2 l ls hstarts e he =>
      intro as rest hls hrun
      rw [Parser.many, if_pos hstarts, he] at hrun
      cases hrun
  | case3 l ls hstarts a mid ha hlength ih =>
      intro as rest hls hrun
      rw [Parser.many, if_pos hstarts, ha] at hrun
      dsimp only at hrun
      rw [if_pos hlength] at hrun
      obtain ⟨⟨as', rest'⟩, has, hrun⟩ := Outcome.map_eq_ok.mp hrun
      cases hrun
      obtain ⟨hPa, hmid⟩ := hp _ a mid hls ha
      obtain ⟨hPas, hrest⟩ := ih _ _ hmid has
      exact ⟨List.forall_mem_cons.mpr ⟨hPa, hPas⟩, hrest⟩
  | case4 l ls hstarts a mid ha hlength =>
      intro as rest hls hrun
      rw [Parser.many, if_pos hstarts, ha] at hrun
      dsimp only at hrun
      rw [if_neg hlength] at hrun
      cases hrun
      obtain ⟨hPa, hmid⟩ := hp _ a mid hls ha
      exact ⟨by simpa using hPa, hmid⟩
  | case5 l ls hstarts =>
      intro as rest hls hrun
      rw [Parser.many, if_neg hstarts] at hrun
      cases hrun
      exact ⟨by simp, hls⟩

theorem many1 (hp : Gives P p) :
    Gives (fun as => as ≠ [] ∧ ∀ a ∈ as, P a) (Parser.many1 starts p) := by
  refine bind hp fun a ha => bind (many hp) fun as has => pure ⟨by simp, ?_⟩
  exact List.forall_mem_cons.mpr ⟨ha, has⟩

end Gives

end Parser

/-! ## The grammar -/

namespace Grammar

open Composables.Graphql.Parser (Gives)

variable {α : Type} {P : α → Prop} {p : Parser α}

theorem gives_bracketed (opening closing : Char) (hp : Gives P p) :
    Gives P (bracketed opening closing p) :=
  .bind (.expect _) fun _ _ => .bind hp fun _ ha => .bind (.expect _) fun _ _ => .pure ha

theorem gives_typeWith {room : ℕ} {list : Parser TypeRef}
    (h : Gives (fun t => t.Formed room ∧ t.isNonNull = false) list) :
    Gives (fun t => t.Formed room) (typeWith list) := by
  have hbang : ∀ inner : TypeRef, inner.Formed room ∧ inner.isNonNull = false →
      Gives (fun t : TypeRef => t.Formed room) (do
        if ← Parser.accept (.symbol '!') then return .nonNull inner else return inner) := by
    intro inner hinner
    refine .bind (.accept _) fun bang _ => ?_
    split
    · exact .pure ⟨hinner.2, hinner.1⟩
    · exact .pure hinner.1
  refine .bind .peek? fun t ht => ?_
  dsimp only
  split
  · refine .bind .skip fun _ _ =>
      .bind (P := fun t : TypeRef => t.Formed room ∧ t.isNonNull = false) (.pure ?_) hbang
    exact ⟨ht _ rfl, rfl⟩
  · exact .bind h hbang
  · exact .bind .fail hbang

theorem gives_type (room : ℕ) : Gives (fun t => t.Formed room) (type room) := by
  induction room with
  | zero => exact gives_typeWith .fail
  | succ room ih =>
      exact gives_typeWith (.bind (gives_bracketed _ _ ih) fun _ h => .pure ⟨⟨room, rfl, h⟩, rfl⟩)

theorem formed_ofName {s : String} (h : IsName s) (constant : Bool) (room : ℕ) :
    (ofName s).Formed constant room := by
  unfold ofName
  split
  · trivial
  · trivial
  · trivial
  · rename_i htrue hfalse hnull
    exact ⟨h, ofName.eq_4 s htrue hfalse hnull⟩

theorem gives_valueWith {constant : Bool} {room : ℕ} {list object : Parser Value}
    (hlist : Gives (fun v => v.Formed constant room) list)
    (hobject : Gives (fun v => v.Formed constant room) object) :
    Gives (fun v => v.Formed constant room) (valueWith constant list object) := by
  refine .bind .peek? fun t ht => ?_
  split
  · exact .bind .skip fun _ _ => .pure (formed_ofName (ht _ rfl) constant room)
  · exact .bind .skip fun _ _ => .pure (ht _ rfl)
  · exact .bind .skip fun _ _ => .pure (ht _ rfl)
  · exact .bind .skip fun _ _ => .pure trivial
  · split
    · exact .fail
    · rename_i hconstant
      refine .bind .skip fun _ _ => .bind .name fun _ h => .pure ⟨?_, h⟩
      exact Bool.eq_false_of_not_eq_true hconstant
  · exact hlist
  · exact hobject
  · exact .fail

theorem gives_labelled (hp : Gives P p) :
    Gives (fun r => IsName r.1 ∧ P r.2) (labelled p) :=
  .bind .name fun _ hk => .bind (.expect _) fun _ _ => .bind hp fun _ ha => .pure ⟨hk, ha⟩

theorem gives_value (constant : Bool) (room : ℕ) :
    Gives (fun v => v.Formed constant room) (value constant room) := by
  induction room with
  | zero => exact gives_valueWith .fail .fail
  | succ room ih =>
      refine gives_valueWith ?_ ?_
      · refine .bind (gives_bracketed _ _ (.many ih)) fun _ h => .pure ?_
        exact ⟨room, rfl, formedItems_iff.mpr h⟩
      · refine .bind (gives_bracketed _ _ (.many (gives_labelled ih))) fun _ h => .pure ?_
        exact ⟨room, rfl, formed_foldl List.Pairwise.nil trivial h⟩

theorem gives_arguments? (room : ℕ) :
    Gives (fun arguments => FormedArguments arguments room) (arguments? room) := by
  have hsome : Gives (fun arguments => FormedArguments arguments room) (arguments room) := by
    cases room with
    | zero => exact .fail
    | succ room =>
        refine (gives_bracketed _ _ (.many1 (gives_labelled (gives_value false room)))).mono ?_
        exact fun _ h => .inr ⟨room, rfl, formedFields_iff.mpr h.2⟩
  refine .bind (.optional hsome) fun o ho => .pure ?_
  cases o with
  | none => exact .inl rfl
  | some arguments => exact ho arguments rfl

theorem gives_directives (room : ℕ) :
    Gives (fun ds => ∀ d ∈ ds, d.Formed room) (directives room) :=
  .many (.bind (.expect _) fun _ _ => .bind .name fun _ hname =>
    .bind (gives_arguments? room) fun _ harguments => .pure ⟨hname, harguments⟩)

theorem gives_selection {room : ℕ} {set : Parser (List Selection)}
    (hset : Gives (fun ss => FormedSet ss room) set) :
    Gives (fun s => s.Formed room) (selection room set) := by
  refine .bind .peek? fun t ht => ?_
  split
  · refine .bind .position fun _ _ => .bind .skip fun _ _ => ?_
    refine .bind (.optional (.bind (.expect _) fun _ _ => .name)) fun second hsecond => ?_
    refine .bind (gives_arguments? room) fun arguments harguments => ?_
    refine .bind (gives_directives room) fun directives hdirectives => ?_
    refine .bind (.optional hset) fun selections hselections => ?_
    have hinside : selections.getD [] = [] ∨ FormedSet (selections.getD []) room := by
      cases selections with
      | none => exact .inl rfl
      | some selections => exact .inr (hselections selections rfl)
    cases second with
    | none => exact .pure ⟨by simp, ht _ rfl, harguments, hdirectives, hinside⟩
    | some name =>
        refine .pure ⟨?_, hsecond name rfl, harguments, hdirectives, hinside⟩
        rintro _ ⟨⟩
        exact ht _ rfl
  · refine .bind .skip fun _ _ => .bind .position fun _ _ => .bind .peek? fun t ht => ?_
    split
    · refine .bind .skip fun _ _ => .bind .name fun condition hcondition => ?_
      refine .bind (gives_directives room) fun directives hdirectives => ?_
      exact .bind hset fun _ h => .pure ⟨by simpa using hcondition, hdirectives, h⟩
    · rename_i hon
      refine .bind .skip fun _ _ => ?_
      refine .bind (gives_directives room) fun _ h => .pure ⟨ht _ rfl, ?_, h⟩
      rintro rfl
      exact hon rfl
    · refine .bind (gives_directives room) fun directives hdirectives => ?_
      exact .bind hset fun _ h => .pure ⟨by simp, hdirectives, h⟩
    · exact .fail
  · exact .fail

theorem gives_selectionSet (room : ℕ) :
    Gives (fun ss => FormedSet ss room) (selectionSet room) := by
  induction room with
  | zero => exact .fail
  | succ room ih =>
      refine (gives_bracketed _ _ (.many1 (gives_selection ih))).mono ?_
      exact fun _ h => ⟨room, rfl, h.1, formedAll_iff.mpr h.2⟩

theorem gives_variableDefinition (room : ℕ) :
    Gives (fun v => v.Formed room) (variableDefinition room) := by
  refine .bind (.expect _) fun _ _ => .bind .name fun name hname => .bind (.expect _) fun _ _ => ?_
  refine .bind (gives_type room) fun type htype => ?_
  refine .bind (.optional (.bind (.expect _) fun _ _ => gives_value true room)) ?_
  exact fun _ hdefault => .pure ⟨hname, htype, hdefault⟩

theorem gives_operation (room : ℕ) (position : Position) (kind : OperationKind) :
    Gives (fun d => d.Formed room) (operation room position kind) := by
  have hvariables : Gives (fun vs => ∃ inner, room = inner + 1 ∧
      ∀ v ∈ vs, VariableDefinition.Formed v inner) (variableDefinitions room) := by
    cases room with
    | zero => exact .fail
    | succ room =>
        refine (gives_bracketed _ _ (.many1 (gives_variableDefinition room))).mono ?_
        exact fun _ h => ⟨room, rfl, h.2⟩
  refine .bind (.optional .name) fun name? hname => ?_
  refine .bind (.optional hvariables) fun declared hdeclared => ?_
  refine .bind (gives_directives room) fun directives hdirectives => ?_
  refine .bind (gives_selectionSet room) fun selections hselections => ?_
  refine .pure ⟨hname, ?_, hdirectives, hselections⟩
  cases declared with
  | none => exact .inl rfl
  | some variableDefinitions => exact .inr (hdeclared variableDefinitions rfl)

theorem gives_fragment (room : ℕ) (position : Position) :
    Gives (fun d => d.Formed room) (fragment room position) := by
  refine .bind .name fun name hname => .bind (.expect _) fun _ _ => ?_
  refine .bind .name fun condition hcondition => ?_
  refine .bind (gives_directives room) fun directives hdirectives => ?_
  exact .bind (gives_selectionSet room) fun _ h => .pure ⟨hname, hcondition, hdirectives, h⟩

theorem gives_definition (room : ℕ) : Gives (fun x => x.Formed room) (definition room) := by
  refine .bind .position fun position _ => .bind .peek? fun t ht => ?_
  split
  · exact .bind (gives_selectionSet room) fun _ h => .pure h
  · exact .bind .skip fun _ _ => .bind (gives_fragment room position) fun _ h => .pure h
  · split
    · rename_i kind _
      exact .bind .skip fun _ _ => .bind (gives_operation room position kind) fun _ h => .pure h
    · exact .fail
  · exact .fail

end Grammar

/-- What the definitions of a document that was parsed are like. -/
theorem formed_of_parse {text : String} {xs : List Definition}
    (h : parseDocument text = .ok xs) : ∀ x ∈ xs, x.Formed Grammar.depthLimit := by
  have hgives : Parser.Gives (fun xs => xs ≠ [] ∧ ∀ x ∈ xs, x.Formed Grammar.depthLimit)
      (Parser.many1 (fun _ => true) (Grammar.definition Grammar.depthLimit)) :=
    .many1 (Grammar.gives_definition Grammar.depthLimit)
  unfold parseDocument Parser.run at h
  dsimp only at h
  split at h
  · cases h
  · cases h
  · cases h
  · rename_i hrun
    split at h
    · cases h
      exact (hgives _ _ _ (sound_of_scan _ _ _) hrun).1.2
    · cases h

end Composables.Graphql
