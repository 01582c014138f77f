import Composables.Proofs.Distinct
import Composables.Proofs.Graphql.Address
import Composables.Proofs.Sequence

/-
  Visits to the selections of a tree. Whoever goes down a tree with a state of its own comes to the
  selections that a walk lists, in their order (`visitAll_eq_foldl`). That order is depth-first:
  each place comes once, behind what it lies in and in front of its later siblings
  (`depthFirst_of_pairwise`). What is noted of spreads on the way are the names spread in the tree,
  each at its first visit (`spreads_exact`).
-/

namespace Composables

/-- An order of the places in a tree: each once, behind the one it lies in, and in front of its
later siblings with all that these hold. -/
structure DepthFirst (places : List Address) : Prop where
  once : places.Nodup
  inside : ∀ a i b, a ∈ places → a ++ i :: b ∈ places → [a, a ++ i :: b].Sublist places
  beside : ∀ a i j b c, i < j → a ++ i :: b ∈ places → a ++ j :: c ∈ places →
    [a ++ i :: b, a ++ j :: c].Sublist places

/-! ## The order of addresses -/

theorem Address.append_lt_append {b c : Address} (h : b < c) (a : Address) : a ++ b < a ++ c := by
  induction a with
  | nil => exact h
  | cons i a ih => exact List.cons_lt_cons_iff.mpr (.inr ⟨rfl, ih⟩)

theorem Address.lt_append (a : Address) (i : Nat) (b : Address) : a < a ++ i :: b := by
  have h := append_lt_append (List.nil_lt_cons i b) a
  rwa [List.append_nil] at h

/-- Increasing addresses go through a tree depth-first. -/
theorem depthFirst_of_pairwise {places : List Address} (h : places.Pairwise (· < ·)) :
    DepthFirst places := by
  have hne : ∀ {a b : Address}, a < b → a ≠ b := by
    rintro a _ hlt rfl
    exact List.lt_irrefl a hlt
  have hsublist : ∀ a ∈ places, ∀ b ∈ places, a < b → [a, b].Sublist places := by
    intro a ha b hb hlt
    refine (sublist_or_sublist ha hb (hne hlt)).resolve_right fun hsub => ?_
    exact List.lt_asymm hlt (List.pairwise_pair.mp (h.sublist hsub))
  constructor
  case once => exact List.nodup_iff_pairwise_ne.mpr (h.imp fun hlt => hne hlt)
  case inside => exact fun a i b ha hb => hsublist a ha _ hb (a.lt_append i b)
  case beside =>
    intro a i j b c hij hb hc
    have hlt : i :: b < j :: c := List.cons_lt_cons_iff.mpr (.inl hij)
    exact hsublist _ hb _ hc (Address.append_lt_append hlt a)

namespace Graphql

/-! ## Visitors -/

variable {σ : Type}

mutual

/-- Visits a selection, and then what is inside of it with the state that this leaves. -/
def Selection.visit (f : σ → Selection → σ) (state : σ) : Selection → σ
  | .field position alias? name arguments directives selections =>
    visitAll f (f state (.field position alias? name arguments directives selections)) selections
  | .spread position name directives => f state (.spread position name directives)
  | .inline position condition? directives selections =>
    visitAll f (f state (.inline position condition? directives selections)) selections

/-- Visits selections one after the other. -/
def visitAll (f : σ → Selection → σ) (state : σ) : List Selection → σ
  | [] => state
  | s :: ss => visitAll f (s.visit f state) ss

end

mutual

theorem Selection.visit_eq_foldl (f : σ → Selection → σ) (state : σ) :
    ∀ s : Selection, s.visit f state = s.walk.foldl f state
  | .field _ _ _ _ _ selections => by
    rw [Selection.visit, Selection.walk, List.foldl_cons, visitAll_eq_foldl]
  | .spread _ _ _ => by
    rw [Selection.visit, Selection.walk, List.foldl_cons, List.foldl_nil]
  | .inline _ _ _ selections => by
    rw [Selection.visit, Selection.walk, List.foldl_cons, visitAll_eq_foldl]

/-- A visitor comes to the selections of a walk, one by one. -/
theorem visitAll_eq_foldl (f : σ → Selection → σ) (state : σ) :
    ∀ ss : List Selection, visitAll f state ss = (walkAll ss).foldl f state
  | [] => by rw [visitAll, walkAll, List.foldl_nil]
  | s :: ss => by
    rw [visitAll, walkAll, List.foldl_append, visitAll_eq_foldl, Selection.visit_eq_foldl]

end

/-! ## Spreads -/

/-- Notes the name of a spread unless it is there already. -/
def noteSpread (names : List String) (s : Selection) : List String :=
  match s.spreadName? with
  | some name => Distinct.push names name
  | none => names

/-- The number of the visit that comes to a spread of a name first. -/
def firstVisit (ss : List Selection) (name : String) : Nat :=
  ((walkAll ss).map Selection.spreadName?).idxOf (some name)

/-- Names are those of the spreads in a tree, each once, in the order of their first visits. -/
structure NamesSpreads (ss : List Selection) (names : List String) : Prop where
  once : names.Nodup
  mem_iff : ∀ name, name ∈ names ↔
    ∃ a position directives, selectionAt? ss a = some (.spread position name directives)
  order : names.Pairwise fun x y => firstVisit ss x < firstVisit ss y

variable {ss : List Selection}

theorem Selection.spreadName?_eq_some {s : Selection} {name : String} :
    s.spreadName? = some name ↔ ∃ position directives, s = .spread position name directives := by
  cases s <;> simp [spreadName?]

theorem spreads_eq_visitAll (ss : List Selection) : spreads ss = visitAll noteSpread [] ss := by
  rw [visitAll_eq_foldl, spreads, Distinct.ofList, Distinct.extend, List.foldl_filterMap]
  refine congrArg (fun note => List.foldl note [] (walkAll ss)) (funext₂ fun names s => ?_)
  unfold noteSpread
  cases s.spreadName? <;> rfl

theorem namesSpreads_spreads (ss : List Selection) : NamesSpreads ss (spreads ss) := by
  constructor
  case once => exact Distinct.nodup_ofList _
  case mem_iff =>
    intro name
    rw [spreads, Distinct.mem_ofList, List.mem_filterMap]
    constructor
    · rintro ⟨s, hs, hname⟩
      obtain ⟨a, ha⟩ := (traverses_walkAll ss).mem_iff.mp hs
      obtain ⟨position, directives, rfl⟩ := Selection.spreadName?_eq_some.mp hname
      exact ⟨a, position, directives, ha⟩
    · rintro ⟨a, position, directives, ha⟩
      exact ⟨_, (traverses_walkAll ss).mem_iff.mpr ⟨a, ha⟩, rfl⟩
  case order => exact (Distinct.pairwise_idxOf _).imp fun hlt => Distinct.idxOf_map_lt hlt

theorem spreads_append (ss ts : List Selection) :
    spreads (ss ++ ts) = spreads ss ++ (spreads ts).filter fun name => name ∉ spreads ss := by
  rw [spreads, walkAll_append, List.filterMap_append, Distinct.ofList_append,
    Distinct.extend_eq_append]
  rfl

/-- A walk goes through all places of a tree depth-first, and so does every visitor. The spreads
noted on the way are those of the tree at their first visits; the spreads of further selections come
behind them, as far as they are new. -/
theorem spreads_exact (ss : List Selection) :
    (∃ visits : List (Address × Selection), visits.map Prod.snd = walkAll ss ∧
      (∀ a s, (a, s) ∈ visits ↔ selectionAt? ss a = some s) ∧
      DepthFirst (visits.map Prod.fst)) ∧
    (∀ (σ : Type) (f : σ → Selection → σ) (state : σ),
      visitAll f state ss = (walkAll ss).foldl f state) ∧
    spreads ss = visitAll noteSpread [] ss ∧
    NamesSpreads ss (spreads ss) ∧
    ∀ ts, spreads (ss ++ ts) = spreads ss ++ (spreads ts).filter fun name => name ∉ spreads ss := by
  refine ⟨?_, fun σ f state => visitAll_eq_foldl f state ss, spreads_eq_visitAll ss,
    namesSpreads_spreads ss, spreads_append ss⟩
  obtain ⟨visits, hwalk, hlt, hmem⟩ := traverses_walkAll ss
  exact ⟨visits, hwalk, hmem, depthFirst_of_pairwise (List.pairwise_map.mpr hlt)⟩

/-- Spreads in inline fragments and in fields, one of them twice. -/
example : spreads
    [.field .start none "me" [] [] [.inline .start (some "User") []
      [.spread .start "A" [], .field .start none "friends" [] []
        [.spread .start "B" [], .spread .start "A" []]]]] = ["A", "B"] := by
  decide +kernel

end Graphql

end Composables
