import Composables.Proofs.Json.Literal
import Composables.Proofs.Text.Split

/-
  Reading back what is written. The text of a value without floats is read to its end
  (`read_compact`). What a text has as its value is sound (`sound_of_toJson?`): its integers fit 64
  bits, its objects have each name once, and no more brackets are open than may be. A sound value
  without floats is the value of its own text (`parse?_compact`).
-/

namespace Composables.Json

open Draft (skipSpace)

variable {v : Json} {fuel room : ℕ} {cs rest : List Char}

/-! ## Values and drafts -/

mutual

/-- The draft of a value without floats. -/
def draft : Json → Draft
  | .null => .null
  | .bool b => .bool b
  | .int n => .number (.ofInt n)
  | .float _ => .unreadable
  | .string s => .string (some s)
  | .array items => .array (itemDrafts items) true
  | .object members => .object (memberDrafts members) true

def itemDrafts : List Json → List Draft
  | [] => []
  | v :: vs => v.draft :: itemDrafts vs

def memberDrafts : List (String × Json) → List (Option String × Draft)
  | [] => []
  | (k, v) :: ms => (some k, v.draft) :: memberDrafts ms

end

mutual

/-- Whether no number in a value is a float. -/
def floatFree : Json → Bool
  | .float _ => false
  | .array items => floatFreeItems items
  | .object members => floatFreeMembers members
  | _ => true

def floatFreeItems : List Json → Bool
  | [] => true
  | v :: vs => v.floatFree && floatFreeItems vs

def floatFreeMembers : List (String × Json) → Bool
  | [] => true
  | (_, v) :: ms => v.floatFree && floatFreeMembers ms

end

theorem isWhole_draft (h : v.floatFree) : v.draft.isWhole := by
  cases v with
  | float => cases h
  | _ => rfl

/-! ## Texts of values -/

def text (v : Json) : List Char := v.compact.toList

def memberText (m : String × Json) : List Char := (quote m.1).toList ++ ':' :: m.2.text

theorem text_array (vs : List Json) :
    (Json.array vs).text = '[' :: (Text.join [','] (vs.map text) ++ [']']) := by
  have hjoin : (",".intercalate (vs.map compact)).toList = Text.join [','] (vs.map text) := by
    rw [String.toList_intercalate, List.map_map, Text.join_eq_intercalate]
    rfl
  rw [text, compact, compactItems_eq, String.toList_append, String.toList_append, hjoin,
    List.append_assoc]
  rfl

theorem text_object (ms : Members) :
    (Json.object ms).text = '\x7b' :: (Text.join [','] (ms.map memberText) ++ ['\x7d']) := by
  have hmember (m : String × Json) : (quote m.1 ++ ":" ++ m.2.compact).toList = memberText m := by
    rw [String.toList_append, String.toList_append, List.append_assoc]
    rfl
  have hjoin : (",".intercalate (ms.map fun m => quote m.1 ++ ":" ++ m.2.compact)).toList =
      Text.join [','] (ms.map memberText) := by
    rw [String.toList_intercalate, List.map_map, Text.join_eq_intercalate]
    exact congrArg _ (List.map_congr_left fun m _ => hmember m)
  rw [text, compact, compactMembers_eq, String.toList_append, String.toList_append, hjoin,
    List.append_assoc]
  rfl

/-- Whether a text opens with a sign of its own, that is neither white space nor a bracket at an
end. -/
def Opens (cs : List Char) : Prop :=
  ∃ c ∈ cs.head?, Draft.isSpace c = false ∧ c ≠ ']' ∧ c ≠ '\x7d'

theorem Opens.append (h : Opens cs) (rest : List Char) : Opens (cs ++ rest) := by
  obtain ⟨c, hc, hopens⟩ := h
  obtain ⟨cs, rfl⟩ := List.head?_eq_some_iff.mp hc
  exact ⟨c, rfl, hopens⟩

theorem Opens.skipSpace (h : Opens cs) : skipSpace cs = cs := by
  obtain ⟨c, hc, hspace, -⟩ := h
  obtain ⟨cs, rfl⟩ := List.head?_eq_some_iff.mp hc
  exact List.dropWhile_cons_of_neg (by rw [hspace]; exact Bool.false_ne_true)

theorem opens_quote (s : String) : Opens (quote s).toList := by
  rw [toList_quote]
  exact ⟨'"', rfl, rfl, by decide, by decide⟩

theorem ne_of_opens_number {c : Char} (hc : c.isDigit ∨ c = '-') (d : Char)
    (hd : ¬(d.isDigit ∨ d = '-')) : c ≠ d := by
  rintro rfl
  exact hd hc

theorem opens_number {c : Char} (hc : c.isDigit ∨ c = '-') (cs : List Char) : Opens (c :: cs) := by
  have hother := ne_of_opens_number hc
  refine ⟨c, rfl, ?_, hother _ (by decide), hother _ (by decide)⟩
  simp only [Draft.isSpace, Bool.or_eq_false_iff, beq_eq_false_iff_ne]
  exact ⟨⟨⟨hother _ (by decide), hother _ (by decide)⟩, hother _ (by decide)⟩, hother _ (by decide)⟩

/-! ## Reading texts -/

namespace Draft

theorem value_array (h : Opens cs) :
    value (fuel + 1) ('[' :: cs) =
      (.array (items fuel cs).1 (items fuel cs).2.1, (items fuel cs).2.2) := by
  obtain ⟨c, hc, -, hclose, -⟩ := id h
  obtain ⟨cs, rfl⟩ := List.head?_eq_some_iff.mp hc
  have hbracket : Draft.skipSpace ('[' :: c :: cs) = '[' :: c :: cs := rfl
  rw [value, hbracket]
  simp only [h.skipSpace]
  split
  · rename_i heq
    exact absurd (List.cons.inj heq).1 hclose
  · rfl

theorem value_object (h : Opens cs) :
    value (fuel + 1) ('\x7b' :: cs) =
      (.object (members fuel cs).1 (members fuel cs).2.1, (members fuel cs).2.2) := by
  obtain ⟨c, hc, -, -, hclose⟩ := id h
  obtain ⟨cs, rfl⟩ := List.head?_eq_some_iff.mp hc
  have hbrace : Draft.skipSpace ('\x7b' :: c :: cs) = '\x7b' :: c :: cs := rfl
  rw [value, hbrace]
  simp only [h.skipSpace]
  split
  · rename_i heq
    exact absurd (List.cons.inj heq).1 hclose
  · rfl

theorem value_quote (s : String) (rest : List Char) :
    value (fuel + 1) ((quote s).toList ++ rest) = (.string (some s), rest) := by
  rw [value, ((opens_quote s).append rest).skipSpace, toList_quote, List.cons_append,
    List.append_assoc, List.singleton_append]
  simp only [string?_escape]

/-- A number is what opens with a digit or a minus. -/
theorem value_number {c : Char} (hc : c.isDigit ∨ c = '-') {m : Numeral}
    (hread : Numeral.read? (c :: cs) = some (m, rest)) :
    value (fuel + 1) (c :: cs) = (.number m, rest) := by
  have hother := ne_of_opens_number hc
  unfold value
  rw [(opens_number hc cs).skipSpace]
  split <;> rename_i heq
  · exact absurd (List.cons.inj heq).1 (hother _ (by decide))
  · exact absurd (List.cons.inj heq).1 (hother _ (by decide))
  · exact absurd (List.cons.inj heq).1 (hother _ (by decide))
  · exact absurd (List.cons.inj heq).1 (hother _ (by decide))
  · exact absurd (List.cons.inj heq).1 (hother _ (by decide))
  · exact absurd (List.cons.inj heq).1 (hother _ (by decide))
  · rw [hread]

/-- An item in front of others. -/
theorem items_cons {d : Draft} (hvalue : value fuel cs = (d, ',' :: rest)) (hd : d.isWhole) :
    items (fuel + 1) cs = (d :: (items fuel rest).1, (items fuel rest).2) := by
  rw [items, hvalue]
  dsimp only
  rw [hd]
  rfl

/-- The last item. -/
theorem items_last {d : Draft} (hvalue : value fuel cs = (d, ']' :: rest)) (hd : d.isWhole) :
    items (fuel + 1) cs = ([d], true, rest) := by
  rw [items, hvalue]
  dsimp only
  rw [hd]
  rfl

theorem members_quote (k : String) (cs : List Char) :
    members (fuel + 1) ((quote k).toList ++ ':' :: cs) =
      let (item, cs) := value fuel cs
      if !item.isWhole then ([(some k, item)], false, []) else
      match Draft.skipSpace cs with
      | ',' :: cs =>
        let (members, closed, rest) := members fuel cs
        ((some k, item) :: members, closed, rest)
      | '\x7d' :: rest => ([(some k, item)], true, rest)
      | _ => ([(some k, item)], false, []) := by
  rw [members, ((opens_quote k).append _).skipSpace, toList_quote, List.cons_append,
    List.append_assoc, List.singleton_append]
  simp only [string?_escape]
  rfl

/-- A member in front of others. -/
theorem members_cons {k : String} {d : Draft} (hvalue : value fuel cs = (d, ',' :: rest))
    (hd : d.isWhole) :
    members (fuel + 1) ((quote k).toList ++ ':' :: cs) =
      ((some k, d) :: (members fuel rest).1, (members fuel rest).2) := by
  rw [members_quote, hvalue]
  dsimp only
  rw [hd]
  rfl

/-- The last member. -/
theorem members_last {k : String} {d : Draft} (hvalue : value fuel cs = (d, '\x7d' :: rest))
    (hd : d.isWhole) :
    members (fuel + 1) ((quote k).toList ++ ':' :: cs) = ([(some k, d)], true, rest) := by
  rw [members_quote, hvalue]
  dsimp only
  rw [hd]
  rfl

end Draft

/-! ## Reading what is written -/

theorem toList_toString_opens (n : ℤ) :
    ∃ c cs, (toString n).toList = c :: cs ∧ (c.isDigit ∨ c = '-') := by
  rw [Numeral.toList_toString]
  split
  · exact ⟨'-', _, rfl, .inr rfl⟩
  · obtain ⟨d, ds, hds⟩ : ∃ d ds, Nat.toDigits 10 n.natAbs = d :: ds :=
      List.exists_cons_of_ne_nil Nat.toDigits_ne_nil
    exact ⟨d, ds, hds, .inl (Text.all_isDigit_toDigits n.natAbs d (hds ▸ List.mem_cons_self))⟩

theorem opens_text (h : v.floatFree) : Opens v.text := by
  cases v with
  | null => exact ⟨'n', rfl, rfl, by decide, by decide⟩
  | bool b => cases b with
    | true => exact ⟨'t', rfl, rfl, by decide, by decide⟩
    | false => exact ⟨'f', rfl, rfl, by decide, by decide⟩
  | int n =>
      obtain ⟨c, cs, hcs, hc⟩ := toList_toString_opens n
      show Opens (toString n).toList
      rw [hcs]
      exact opens_number hc cs
  | float => cases h
  | string s => exact opens_quote s
  | array vs =>
      rw [text_array]
      exact ⟨'[', rfl, rfl, by decide, by decide⟩
  | object ms =>
      rw [text_object]
      exact ⟨'\x7b', rfl, rfl, by decide, by decide⟩

theorem stops_nil : Stops [] := nofun

theorem stops_cons {c : Char} (hc : c = ',' ∨ c = ']' ∨ c = '\x7d') : Stops (c :: rest) := by
  rintro _ ⟨⟩
  exact hc

theorem join_cons {α : Type} (f : α → List Char) (x : α) (xs : List α) :
    Text.join [','] ((x :: xs).map f) =
      f x ++ if xs.isEmpty then [] else ',' :: Text.join [','] (xs.map f) := by
  cases xs with
  | nil => exact (List.append_nil _).symm
  | cons y ys => exact List.append_assoc ..

theorem opens_items {vs : List Json} (h : v.floatFree) (rest : List Char) :
    Opens (Text.join [','] ((v :: vs).map text) ++ rest) := by
  rw [join_cons, List.append_assoc]
  exact (opens_text h).append _

theorem opens_members (m : String × Json) (ms : Members) (rest : List Char) :
    Opens (Text.join [','] ((m :: ms).map memberText) ++ rest) := by
  rw [join_cons, List.append_assoc, memberText, List.append_assoc]
  exact (opens_quote m.1).append _

mutual

/-- A value is read as far as it is written. -/
theorem value_text {fuel : ℕ} {rest : List Char} (v : Json) (h : v.floatFree) (hstops : Stops rest)
    (hfuel : 2 * v.text.length ≤ fuel) :
    Draft.value fuel (v.text ++ rest) = (v.draft, rest) := by
  -- by recursion on the value; two steps for each sign suffice, since a bracket or a separator
  -- stands in front of whatever is read inside
  obtain ⟨fuel, rfl⟩ : ∃ n, fuel = n + 1 := by
    obtain ⟨c, hc, -⟩ := opens_text h
    obtain ⟨cs, hcs⟩ := List.head?_eq_some_iff.mp hc
    rw [hcs, List.length_cons] at hfuel
    exact ⟨fuel - 1, by omega⟩
  cases v with
  | null => rfl
  | bool b => cases b <;> rfl
  | int n =>
      obtain ⟨c, cs, hcs, hc⟩ := toList_toString_opens n
      have hread := Numeral.read?_toString n hstops
      show Draft.value (fuel + 1) ((toString n).toList ++ rest) = _
      rw [hcs, List.cons_append] at hread ⊢
      exact Draft.value_number hc hread
  | float => cases h
  | string s => exact Draft.value_quote s rest
  | array vs =>
      cases vs with
      | nil => rfl
      | cons v vs =>
          obtain ⟨hv, -⟩ := Bool.and_eq_true_iff.mp h
          rw [text_array, List.length_cons, List.length_append, List.length_singleton] at hfuel
          rw [text_array, List.cons_append, List.append_assoc, List.singleton_append,
            Draft.value_array (opens_items hv _), items_text v vs h (by omega)]
          rfl
  | object ms =>
      cases ms with
      | nil => rfl
      | cons m ms =>
          rw [text_object, List.length_cons, List.length_append, List.length_singleton] at hfuel
          rw [text_object, List.cons_append, List.append_assoc, List.singleton_append,
            Draft.value_object (opens_members m ms _), members_text m ms h (by omega)]
          rfl

/-- So are items up to the bracket behind them. -/
theorem items_text {fuel : ℕ} {rest : List Char} (v : Json) (vs : List Json)
    (h : floatFreeItems (v :: vs))
    (hfuel : 2 * (Text.join [','] ((v :: vs).map text)).length + 2 ≤ fuel) :
    Draft.items fuel (Text.join [','] ((v :: vs).map text) ++ ']' :: rest) =
      (itemDrafts (v :: vs), true, rest) := by
  obtain ⟨fuel, rfl⟩ : ∃ n, fuel = n + 1 := ⟨fuel - 1, by omega⟩
  obtain ⟨hv, hvs⟩ := Bool.and_eq_true_iff.mp h
  rw [join_cons] at hfuel ⊢
  rw [List.length_append] at hfuel
  cases vs with
  | nil =>
      rw [List.isEmpty_nil, if_pos rfl, List.append_nil]
      exact Draft.items_last (value_text v hv (stops_cons (by simp)) (by omega)) (isWhole_draft hv)
  | cons w ws =>
      rw [List.isEmpty_cons, if_neg Bool.false_ne_true] at hfuel ⊢
      rw [List.length_cons] at hfuel
      rw [List.append_assoc, List.cons_append, Draft.items_cons
        (value_text v hv (stops_cons (by simp)) (by omega)) (isWhole_draft hv),
        items_text w ws hvs (by omega)]
      rfl

theorem members_text {fuel : ℕ} {rest : List Char} (m : String × Json) (ms : Members)
    (h : floatFreeMembers (m :: ms))
    (hfuel : 2 * (Text.join [','] ((m :: ms).map memberText)).length + 2 ≤ fuel) :
    Draft.members fuel (Text.join [','] ((m :: ms).map memberText) ++ '\x7d' :: rest) =
      (memberDrafts (m :: ms), true, rest) := by
  obtain ⟨fuel, rfl⟩ : ∃ n, fuel = n + 1 := ⟨fuel - 1, by omega⟩
  obtain ⟨k, v⟩ := m
  obtain ⟨hv, hms⟩ := Bool.and_eq_true_iff.mp h
  rw [join_cons] at hfuel ⊢
  rw [List.length_append, memberText, List.length_append, List.length_cons] at hfuel
  dsimp only at hfuel
  rw [memberText, List.append_assoc, List.append_assoc, List.cons_append]
  cases ms with
  | nil =>
      rw [List.isEmpty_nil, if_pos rfl, List.nil_append]
      exact Draft.members_last (value_text v hv (stops_cons (by simp)) (by omega))
        (isWhole_draft hv)
  | cons m' ms =>
      rw [List.isEmpty_cons, if_neg Bool.false_ne_true] at hfuel ⊢
      rw [List.length_cons] at hfuel
      rw [List.cons_append, Draft.members_cons
        (value_text v hv (stops_cons (by simp)) (by omega)) (isWhole_draft hv),
        members_text m' ms hms (by omega)]
      rfl

end

/-- What is written of a value without floats is read as the value. -/
theorem read_compact (h : v.floatFree) : Draft.read v.compact = (v.draft, true) := by
  have hvalue : Draft.value (2 * v.text.length + 2) v.text = (v.draft, []) := by
    have hread := value_text v h stops_nil (Nat.le_add_right _ 2)
    rwa [List.append_nil] at hread
  show ((Draft.value (2 * v.text.length + 2) v.text).1,
    (skipSpace (Draft.value (2 * v.text.length + 2) v.text).2).isEmpty) = _
  rw [hvalue]
  rfl

/-! ## Decoding what is read -/

namespace Members

variable {ms : Members} {k : String}

theorem insert_of_not_mem (h : k ∉ ms.map Prod.fst) (v : Json) :
    insert k v ms = ms ++ [(k, v)] := by
  induction ms with
  | nil => rfl
  | cons m ms ih =>
      rw [List.map_cons, List.mem_cons, not_or] at h
      rw [insert, if_neg (Ne.symm h.1), ih h.2, List.cons_append]

theorem mem_insert {m : String × Json} (h : m ∈ insert k v ms) : m = (k, v) ∨ m ∈ ms := by
  induction ms with
  | nil => exact .inl (List.mem_singleton.mp h)
  | cons m' ms ih =>
      unfold insert at h
      split at h
      · exact (List.mem_cons.mp h).imp_right (List.mem_cons_of_mem _)
      · rcases List.mem_cons.mp h with rfl | h
        · exact .inr List.mem_cons_self
        · exact (ih h).imp_right (List.mem_cons_of_mem _)

theorem nodup_insert (h : (ms.map Prod.fst).Nodup) (k : String) (v : Json) :
    ((insert k v ms).map Prod.fst).Nodup := by
  rw [keys_insert]
  split
  · exact h
  · rename_i hk
    exact h.append (List.nodup_singleton k) (List.disjoint_singleton.mpr hk)

/-- Members with different names are set one behind the other. -/
theorem foldl_insert {ms' : Members} (h : ((ms' ++ ms).map Prod.fst).Nodup) :
    ms.foldl (fun ms m => insert m.1 m.2 ms) ms' = ms' ++ ms := by
  induction ms generalizing ms' with
  | nil => exact (List.append_nil ms').symm
  | cons m ms ih =>
      have hm : m.1 ∉ ms'.map Prod.fst := by
        rw [List.map_append, List.map_cons] at h
        exact fun hm => List.disjoint_of_nodup_append h hm List.mem_cons_self
      rw [List.append_cons] at h ⊢
      rw [List.foldl_cons, insert_of_not_mem hm, ih h]

theorem nodup_foldl_insert (ms : Members) {ms' : Members} (h : (ms'.map Prod.fst).Nodup) :
    ((ms.foldl (fun ms m => insert m.1 m.2 ms) ms').map Prod.fst).Nodup := by
  induction ms generalizing ms' with
  | nil => exact h
  | cons m ms ih => exact ih (nodup_insert h m.1 m.2)

theorem mem_foldl_insert {ms' : Members} {m : String × Json}
    (h : m ∈ ms.foldl (fun ms m => insert m.1 m.2 ms) ms') : m ∈ ms' ∨ m ∈ ms := by
  induction ms generalizing ms' with
  | nil => exact .inl h
  | cons m' ms ih =>
      rcases ih h with h | h
      · rcases mem_insert h with rfl | h
        · exact .inr List.mem_cons_self
        · exact .inl h
      · exact .inr (List.mem_cons_of_mem _ h)

end Members

/-- What a text has as its value where fewer than `room` brackets may be open. -/
inductive Sound : ℕ → Json → Prop
  | null {room : ℕ} : Sound room .null
  | bool {room : ℕ} (b : Bool) : Sound room (.bool b)
  | int {room : ℕ} {n : ℤ} (h : Numeral.Fits n) : Sound room (.int n)
  | float {room : ℕ} (x : Decimal.Binary64) : Sound room (.float x)
  | string {room : ℕ} (s : String) : Sound room (.string s)
  | array {room : ℕ} {vs : List Json} (hroom : 1 < room) (h : ∀ v ∈ vs, Sound (room - 1) v) :
      Sound room (.array vs)
  | object {room : ℕ} {ms : Members} (hroom : 1 < room) (hnames : (ms.map Prod.fst).Nodup)
      (h : ∀ m ∈ ms, Sound (room - 1) m.2) : Sound room (.object ms)

mutual

/-- A value that a text has is decoded from its draft. -/
theorem toJson?_draft {room : ℕ} (v : Json) (hv : Sound room v) (h : v.floatFree) :
    v.draft.toJson? room = some v := by
  cases v with
  | null => rfl
  | bool => rfl
  | int n =>
      cases hv with
      | int hn => exact Numeral.value?_ofInt hn
  | float => cases h
  | string => rfl
  | array vs =>
      cases hv with
      | array hroom hvs =>
          rw [draft, Draft.toJson?, if_neg (Nat.not_le.mpr hroom), itemsToJson?_drafts vs hvs h]
          rfl
  | object ms =>
      cases hv with
      | object hroom hnames hms =>
          rw [draft, Draft.toJson?, if_neg (Nat.not_le.mpr hroom), membersToJson?_drafts ms hms h]
          exact congrArg (some ∘ Json.object) (Members.foldl_insert hnames)

theorem itemsToJson?_drafts {room : ℕ} (vs : List Json) (hvs : ∀ v ∈ vs, Sound room v)
    (h : floatFreeItems vs) :
    Draft.itemsToJson? room (itemDrafts vs) = some vs := by
  cases vs with
  | nil => rfl
  | cons v vs =>
      obtain ⟨hv, hvs'⟩ := List.forall_mem_cons.mp hvs
      obtain ⟨h, h'⟩ := Bool.and_eq_true_iff.mp h
      rw [itemDrafts, Draft.itemsToJson?, toJson?_draft v hv h, itemsToJson?_drafts vs hvs' h']
      rfl

theorem membersToJson?_drafts {room : ℕ} (ms : Members) (hms : ∀ m ∈ ms, Sound room m.2)
    (h : floatFreeMembers ms) :
    Draft.membersToJson? room (memberDrafts ms) = some ms := by
  cases ms with
  | nil => rfl
  | cons m ms =>
      obtain ⟨k, v⟩ := m
      obtain ⟨hv, hms'⟩ := List.forall_mem_cons.mp hms
      obtain ⟨h, h'⟩ := Bool.and_eq_true_iff.mp h
      rw [memberDrafts, Draft.membersToJson?, toJson?_draft v hv h,
        membersToJson?_drafts ms hms' h']
      rfl

end

mutual

/-- What a draft is decoded to can be decoded again. -/
theorem sound_of_toJson? {room : ℕ} {v : Json} (d : Draft) (h : d.toJson? room = some v) :
    Sound room v := by
  cases d with
  | unreadable => cases h
  | null =>
      obtain rfl := Option.some.inj h
      exact .null
  | bool b =>
      obtain rfl := Option.some.inj h
      exact .bool b
  | number m =>
      obtain ⟨n, rfl, hn⟩ | ⟨x, rfl⟩ := Numeral.value?_cases h
      · exact .int hn
      · exact .float x
  | string text =>
      obtain ⟨s, _, rfl⟩ := Option.map_eq_some_iff.mp h
      exact .string s
  | array items closed =>
      unfold Draft.toJson? at h
      split at h
      · cases h
      · rename_i hroom
        obtain ⟨vs, hvs, h⟩ := Option.bind_eq_some_iff.mp h
        obtain ⟨-, -, h⟩ := Option.bind_eq_some_iff.mp h
        obtain rfl := Option.some.inj h
        exact .array (Nat.lt_of_not_le hroom) (sound_of_itemsToJson? items hvs)
  | object members closed =>
      unfold Draft.toJson? at h
      split at h
      · cases h
      · rename_i hroom
        obtain ⟨ms, hms, h⟩ := Option.bind_eq_some_iff.mp h
        obtain ⟨-, -, h⟩ := Option.bind_eq_some_iff.mp h
        obtain rfl := Option.some.inj h
        have hsound := sound_of_membersToJson? members hms
        exact .object (Nat.lt_of_not_le hroom) (Members.nodup_foldl_insert ms List.nodup_nil)
          fun m hm => (Members.mem_foldl_insert hm).elim (nofun) (hsound m)

theorem sound_of_itemsToJson? {room : ℕ} {vs : List Json} (ds : List Draft)
    (h : Draft.itemsToJson? room ds = some vs) :
    ∀ v ∈ vs, Sound room v := by
  cases ds with
  | nil =>
      obtain rfl := Option.some.inj h
      nofun
  | cons d ds =>
      rw [Draft.itemsToJson?] at h
      obtain ⟨v, hv, h⟩ := Option.bind_eq_some_iff.mp h
      obtain ⟨vs, hvs, h⟩ := Option.bind_eq_some_iff.mp h
      obtain rfl := Option.some.inj h
      exact List.forall_mem_cons.mpr ⟨sound_of_toJson? d hv, sound_of_itemsToJson? ds hvs⟩

theorem sound_of_membersToJson? {room : ℕ} {ms : Members} (ds : List (Option String × Draft))
    (h : Draft.membersToJson? room ds = some ms) :
    ∀ m ∈ ms, Sound room m.2 := by
  match ds with
  | [] =>
      obtain rfl := Option.some.inj h
      nofun
  | (none, d) :: ds => cases h
  | (some k, d) :: ds =>
      rw [Draft.membersToJson?] at h
      obtain ⟨v, hv, h⟩ := Option.bind_eq_some_iff.mp h
      obtain ⟨ms, hms, h⟩ := Option.bind_eq_some_iff.mp h
      obtain rfl := Option.some.inj h
      exact List.forall_mem_cons.mpr ⟨sound_of_toJson? d hv, sound_of_membersToJson? ds hms⟩

end

/-- A value without floats that some text has is the value of its own text. -/
theorem parse?_compact (hv : Sound depthLimit v) (h : v.floatFree) : parse? v.compact = some v := by
  rw [parse?, read_compact h]
  exact toJson?_draft v hv h

end Composables.Json
