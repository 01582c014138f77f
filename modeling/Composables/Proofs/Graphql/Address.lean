import Composables.Graphql.Walk
import Mathlib.Data.List.Basic

/-
  Addresses in trees. An address is the way down to a node by the numbers of the children, so it
  comes in front of those below it and of those below later siblings in the order of lists. A walk
  goes through a tree in this order and comes to each address once (`traverses_walkAll`).
-/

namespace Composables

/-- The way to a node of a tree: at each level the number of the child. -/
abbrev Address := List Nat

/-- A list holds what stands at the addresses of a tree, in the order of the addresses. -/
def Traverses {α : Type} (xs : List α) (get? : Address → Option α) : Prop :=
  ∃ ps : List (Address × α), ps.map Prod.snd = xs ∧ ps.Pairwise (fun p q => p.1 < q.1) ∧
    ∀ a x, (a, x) ∈ ps ↔ get? a = some x

/-- What stands below one of a list of trees. -/
def below {α β : Type} (xs : List β) (get? : β → Address → Option α) : Address → Option α
  | [] => none
  | i :: a => xs[i]?.bind fun x => get? x a

/-- What stands at the first address where it has a property. -/
def IsFirstAt {α : Type} (p : α → Prop) (get? : Address → Option α) (a : Address) (x : α) : Prop :=
  get? a = some x ∧ p x ∧ ∀ b < a, ∀ y, get? b = some y → ¬ p y

/-! ## Lists and addresses -/

/-- The address in a list of trees with one more in front. -/
def Address.next : Address → Address
  | [] => []
  | i :: a => (i + 1) :: a

theorem Address.next_lt {a b : Address} (h : a < b) : a.next < b.next := by
  cases b with
  | nil => exact absurd h (List.not_lt_nil a)
  | cons j b =>
      cases a with
      | nil => exact List.nil_lt_cons _ _
      | cons i a =>
          rw [List.cons_lt_cons_iff] at h
          rw [next, next, List.cons_lt_cons_iff]
          exact h.imp Nat.succ_lt_succ (And.imp_left (congrArg Nat.succ))

theorem Address.next_eq_nil {a : Address} : a.next = [] ↔ a = [] := by
  cases a <;> simp [next]

theorem Address.next_eq_cons {a b : Address} {i : Nat} :
    a.next = i :: b ↔ ∃ j, i = j + 1 ∧ a = j :: b := by
  cases a with
  | nil => simp [next]
  | cons j a =>
      simp only [next, List.cons.injEq]
      constructor
      · rintro ⟨rfl, rfl⟩
        exact ⟨j, rfl, rfl, rfl⟩
      · rintro ⟨_, rfl, rfl, rfl⟩
        exact ⟨rfl, rfl⟩

/-- An address leads into the first tree or into one behind it. -/
theorem below_cons {α β : Type} {z : β} {zs : List β} {get? : β → Address → Option α}
    {a : Address} {x : α} : below (z :: zs) get? a = some x ↔
      (∃ b, 0 :: b = a ∧ get? z b = some x) ∨ ∃ b, b.next = a ∧ below zs get? b = some x := by
  cases a with
  | nil =>
      refine ⟨nofun, ?_⟩
      rintro (⟨b, hb, _⟩ | ⟨b, hb, hx⟩)
      · cases hb
      · rw [Address.next_eq_nil.mp hb] at hx
        cases hx
  | cons i a =>
      simp only [Address.next_eq_cons, List.cons.injEq]
      cases i with
      | zero => simp [below]
      | succ i =>
          constructor
          · exact fun h => .inr ⟨i :: a, ⟨i, rfl, rfl⟩, h⟩
          · rintro (⟨_, ⟨h, _⟩, _⟩ | ⟨_, ⟨j, hj, rfl⟩, h⟩)
            · cases h
            · rwa [← Nat.succ_inj.mp hj] at h

theorem mem_map_address {α : Type} {ps : List (Address × α)} {f : Address → Address} {a : Address}
    {x : α} : (a, x) ∈ ps.map (Prod.map f id) ↔ ∃ b, f b = a ∧ (b, x) ∈ ps := by
  simp only [List.mem_map, Prod.exists, Prod.map_apply, Prod.mk.injEq, id]
  constructor
  · rintro ⟨b, _, hb, rfl, rfl⟩
    exact ⟨b, rfl, hb⟩
  · rintro ⟨b, rfl, hb⟩
    exact ⟨b, x, hb, rfl, rfl⟩

namespace Traverses

variable {α β : Type} {xs ys : List α} {get? get?' : Address → Option α} {x : α}

/-- Where nothing has the empty address, each address goes through a child. -/
theorem exists_cons {ps : List (Address × α)} (hmem : ∀ a x, (a, x) ∈ ps ↔ get? a = some x)
    (hnil : get? [] = none) {p : Address × α} (hp : p ∈ ps) : ∃ i a, p.1 = i :: a := by
  refine List.exists_cons_of_ne_nil fun hempty => ?_
  have hsome := (hmem p.1 p.2).mp hp
  rw [hempty, hnil] at hsome
  cases hsome

theorem mem_iff (h : Traverses xs get?) : x ∈ xs ↔ ∃ a, get? a = some x := by
  obtain ⟨ps, rfl, _, hmem⟩ := h
  simp only [List.mem_map, Prod.exists, exists_eq_right, hmem]

theorem nil : Traverses [] (fun _ => (none : Option α)) :=
  ⟨[], rfl, List.Pairwise.nil, by simp⟩

/-- In front of what stands below it comes the node itself. -/
theorem cons (h : Traverses xs get?) (hnil : get? [] = none) (hself : get?' [] = some x)
    (hbelow : ∀ i a, get?' (i :: a) = get? (i :: a)) : Traverses (x :: xs) get?' := by
  obtain ⟨ps, rfl, hlt, hmem⟩ := h
  refine ⟨([], x) :: ps, rfl, List.pairwise_cons.mpr ⟨fun p hp => ?_, hlt⟩, fun a y => ?_⟩
  · obtain ⟨i, a, hcons⟩ := exists_cons hmem hnil hp
    rw [hcons]
    exact List.nil_lt_cons i a
  · rw [List.mem_cons, hmem]
    cases a with
    | nil => simp [hnil, hself, eq_comm]
    | cons i a => simp [hbelow]

/-- Trees are gone through one after the other. -/
theorem flatMap {f : β → List α} {get? : β → Address → Option α} {zs : List β}
    (h : ∀ z ∈ zs, Traverses (f z) (get? z)) : Traverses (zs.flatMap f) (below zs get?) := by
  induction zs with
  | nil => exact ⟨[], rfl, List.Pairwise.nil, fun a x => by cases a <;> simp [below]⟩
  | cons z zs ih =>
      rw [List.forall_mem_cons] at h
      obtain ⟨ps, hps, hlt, hmem⟩ := h.1
      obtain ⟨qs, hqs, hlt', hmem'⟩ := ih h.2
      refine ⟨ps.map (Prod.map (0 :: ·) id) ++ qs.map (Prod.map Address.next id), ?_, ?_, ?_⟩
      · simp [← hps, ← hqs, Function.comp_def]
      · rw [List.pairwise_append, List.pairwise_map, List.pairwise_map]
        refine ⟨hlt.imp fun hpq => List.cons_lt_cons_iff.mpr (.inr ⟨rfl, hpq⟩),
          hlt'.imp fun hpq => Address.next_lt hpq, ?_⟩
        -- what is below the first tree begins with 0, and what is behind it does not
        simp only [List.forall_mem_map]
        intro p _ q hq
        obtain ⟨i, a, hcons⟩ := exists_cons hmem' rfl hq
        simp only [Prod.map_fst, hcons, Address.next]
        exact List.cons_lt_cons_iff.mpr (.inl (Nat.succ_pos i))
      · intro a x
        rw [List.mem_append, mem_map_address, mem_map_address, below_cons]
        simp only [hmem, hmem']

theorem filterMap (h : Traverses xs get?) (f : α → Option β) :
    Traverses (xs.filterMap f) fun a => (get? a).bind f := by
  obtain ⟨ps, rfl, hlt, hmem⟩ := h
  refine ⟨ps.filterMap fun p => (f p.2).map (p.1, ·), ?_, ?_, fun a y => ?_⟩
  · rw [List.map_filterMap, List.filterMap_map]
    refine List.filterMap_congr fun p _ => ?_
    cases hp : f p.2 <;> simp [hp]
  · rw [List.pairwise_filterMap]
    refine hlt.imp fun {p q} hpq b hb b' hb' => ?_
    obtain ⟨_, _, rfl⟩ := Option.map_eq_some_iff.mp hb
    obtain ⟨_, _, rfl⟩ := Option.map_eq_some_iff.mp hb'
    exact hpq
  · simp only [List.mem_filterMap, Prod.exists, hmem, Option.map_eq_some_iff, Prod.mk.injEq,
      Option.bind_eq_some_iff]
    constructor
    · rintro ⟨b, x, hb, _, hx, rfl, rfl⟩
      exact ⟨x, hb, hx⟩
    · rintro ⟨x, ha, hx⟩
      exact ⟨a, x, ha, y, hx, rfl, rfl⟩

theorem congr (h : Traverses xs get?) (hget : ∀ a, get?' a = get? a) : Traverses xs get?' := by
  rwa [funext hget]

/-- The first element with a property stands at the first address with it. -/
theorem isFirstAt (h : Traverses xs get?) {q : α → Bool} (hfind : xs.find? q = some x) :
    ∃ a, IsFirstAt (q · = true) get? a x := by
  obtain ⟨ps, rfl, hlt, hmem⟩ := h
  obtain ⟨hx, front, back, hsplit, hfront⟩ := List.find?_eq_some_iff_append.mp hfind
  obtain ⟨qs, rest, rfl, rfl, hrest⟩ := List.map_eq_append_iff.mp hsplit
  obtain ⟨⟨a, x'⟩, rs, rfl, rfl, rfl⟩ := List.map_eq_cons_iff.mp hrest
  refine ⟨a, (hmem a x').mp (by simp), hx, fun b hb y hy hqy => ?_⟩
  have hbehind := (List.pairwise_cons.mp (List.pairwise_append.mp hlt).2.1).1
  rcases List.mem_append.mp ((hmem b y).mpr hy) with hq | hr
  · have := hfront y (List.mem_map_of_mem hq)
    simp [hqy] at this
  · rcases List.mem_cons.mp hr with heq | hr
    · rw [(Prod.mk.inj heq).1] at hb
      exact List.lt_irrefl a hb
    · exact List.lt_asymm hb (hbehind _ hr)

end Traverses

/-! ## Selections -/

namespace Graphql

/-- The selections right below a selection. -/
def Selection.children : Selection → List Selection
  | .field _ _ _ _ _ selections => selections
  | .spread _ _ _ => []
  | .inline _ _ _ selections => selections

/-- What stands at an address below a selection; the selection itself has the empty one. -/
def Selection.at? : Selection → Address → Option Selection
  | s, [] => some s
  | s, i :: a => s.children[i]?.bind fun s => s.at? a

/-- What stands at an address below a list of selections. -/
def selectionAt? (selections : List Selection) : Address → Option Selection :=
  below selections Selection.at?

theorem walkAll_eq_flatMap (ss : List Selection) : walkAll ss = ss.flatMap Selection.walk := by
  induction ss with
  | nil => rfl
  | cons s ss ih => rw [walkAll, ih, List.flatMap_cons]

mutual

theorem Selection.traverses_walk : ∀ s : Selection, Traverses s.walk s.at?
  | .field _ _ _ _ _ selections => by
    rw [Selection.walk, walkAll_eq_flatMap]
    exact (Traverses.flatMap (traverses_walks selections)).cons rfl rfl fun _ _ => rfl
  | .spread _ _ _ => by
    rw [Selection.walk]
    exact Traverses.nil.cons rfl rfl fun _ _ => rfl
  | .inline _ _ _ selections => by
    rw [Selection.walk, walkAll_eq_flatMap]
    exact (Traverses.flatMap (traverses_walks selections)).cons rfl rfl fun _ _ => rfl

theorem traverses_walks : ∀ ss : List Selection, ∀ s ∈ ss, Traverses s.walk s.at?
  | [] => fun _ h => absurd h List.not_mem_nil
  | s :: ss => List.forall_mem_cons.mpr ⟨s.traverses_walk, traverses_walks ss⟩

end

/-- A walk goes through the selections in the order of their addresses. -/
theorem traverses_walkAll (ss : List Selection) : Traverses (walkAll ss) (selectionAt? ss) := by
  rw [walkAll_eq_flatMap]
  exact .flatMap (traverses_walks ss)

end Graphql

end Composables
