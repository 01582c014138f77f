import Mathlib.Tactic.Tauto
import Composables.Module.Generate

/-
  The imports of fragments: which constants they name, grouped by the modules that declare them.
-/

namespace Composables

/-! ## Constants by modules -/

variable {groups : List (String × List String)} {module module' constant constant' : String}

/-- A constant is among those of a module. -/
def Grouped (groups : List (String × List String)) (module constant : String) : Prop :=
  ∃ constants, (module, constants) ∈ groups ∧ constant ∈ constants

theorem not_grouped_nil : ¬ Grouped [] module constant := by
  rintro ⟨constants, hmem, _⟩
  exact List.not_mem_nil hmem

theorem grouped_cons {g : String × List String} :
    Grouped (g :: groups) module constant ↔ (g.1 = module ∧ constant ∈ g.2) ∨
      Grouped groups module constant := by
  constructor
  · rintro ⟨constants, hmem, hconstant⟩
    rcases List.mem_cons.mp hmem with rfl | hmem
    · exact .inl ⟨rfl, hconstant⟩
    · exact .inr ⟨constants, hmem, hconstant⟩
  · rintro (⟨rfl, hconstant⟩ | ⟨constants, hmem, hconstant⟩)
    · exact ⟨g.2, List.mem_cons_self, hconstant⟩
    · exact ⟨constants, List.mem_cons_of_mem _ hmem, hconstant⟩

theorem grouped_addConstant : Grouped (addConstant groups module constant) module' constant' ↔
    Grouped groups module' constant' ∨ (module' = module ∧ constant' = constant) := by
  induction groups with
  | nil =>
      rw [addConstant, grouped_cons, List.mem_singleton]
      simp only [not_grouped_nil, or_false, false_or]
      rw [eq_comm (a := module)]
  | cons g groups ih =>
      obtain ⟨m, constants⟩ := g
      rw [addConstant]
      by_cases hm : m = module
      · subst hm
        rw [if_pos rfl, grouped_cons, grouped_cons, Distinct.mem_push]
        tauto
      · rw [if_neg hm, grouped_cons, grouped_cons, ih, or_assoc]

/-- Grouping loses no constant and adds none. -/
theorem grouped_groupConstants {pairs : List (String × String)} :
    Grouped (groupConstants pairs) module constant ↔ (module, constant) ∈ pairs := by
  have hfrom : ∀ groups,
      Grouped (pairs.foldl (fun groups p => addConstant groups p.1 p.2) groups) module constant ↔
      Grouped groups module constant ∨ (module, constant) ∈ pairs := by
    induction pairs with
    | nil => simp
    | cons p pairs ih =>
        intro groups
        rw [List.foldl_cons, ih, grouped_addConstant, List.mem_cons, or_assoc, Prod.ext_iff]
  rw [groupConstants, hfrom]
  simp only [not_grouped_nil, false_or]

theorem map_fst_addConstant :
    (addConstant groups module constant).map Prod.fst =
      Distinct.push (groups.map Prod.fst) module := by
  induction groups with
  | nil => rfl
  | cons g groups ih =>
      obtain ⟨m, constants⟩ := g
      rw [addConstant, List.map_cons]
      by_cases hm : m = module
      · subst hm
        rw [if_pos rfl, List.map_cons]
        exact (if_pos List.mem_cons_self).symm
      · rw [if_neg hm, List.map_cons, ih, Distinct.push, Distinct.push]
        simp only [List.mem_cons, Ne.symm hm, false_or]
        split <;> rfl

/-- The modules come in the order of their first constants. -/
theorem map_fst_groupConstants (pairs : List (String × String)) :
    (groupConstants pairs).map Prod.fst = Distinct.ofList (pairs.map Prod.fst) := by
  have hfrom : ∀ groups : List (String × List String),
      (pairs.foldl (fun groups p => addConstant groups p.1 p.2) groups).map Prod.fst =
        Distinct.extend (groups.map Prod.fst) (pairs.map Prod.fst) := by
    induction pairs with
    | nil => exact fun _ => rfl
    | cons p pairs ih =>
        intro groups
        rw [List.foldl_cons, ih, map_fst_addConstant]
        rfl
  exact hfrom []

theorem formed_addConstant (h : ∀ g ∈ groups, g.2 ≠ [] ∧ g.2.Nodup) :
    ∀ g ∈ addConstant groups module constant, g.2 ≠ [] ∧ g.2.Nodup := by
  induction groups with
  | nil => simp [addConstant]
  | cons g groups ih =>
      obtain ⟨m, constants⟩ := g
      rw [List.forall_mem_cons] at h
      rw [addConstant]
      split
      · refine List.forall_mem_cons.mpr ⟨⟨?_, Distinct.nodup_push h.1.2 constant⟩, h.2⟩
        exact List.ne_nil_of_mem (Distinct.mem_push.mpr (.inr rfl))
      · exact List.forall_mem_cons.mpr ⟨h.1, ih h.2⟩

/-- A module comes with constants, none of which stands twice. -/
theorem formed_groupConstants (pairs : List (String × String)) :
    ∀ g ∈ groupConstants pairs, g.2 ≠ [] ∧ g.2.Nodup := by
  have hfrom : ∀ groups : List (String × List String), (∀ g ∈ groups, g.2 ≠ [] ∧ g.2.Nodup) →
      ∀ g ∈ pairs.foldl (fun groups p => addConstant groups p.1 p.2) groups,
        g.2 ≠ [] ∧ g.2.Nodup := by
    induction pairs with
    | nil => exact fun _ h => h
    | cons p pairs ih => exact fun groups h => ih _ (formed_addConstant h)
  exact hfrom [] (by simp)

/-! ## Kinds of imports -/

/-- Whether an import is there for functions: a client library, or a helper type. -/
def Import.isClient : Import → Bool
  | .library .. => true
  | .reactiveFunction => true
  | .omit => true
  | _ => false

theorem Client.isClient_of_mem {client : Client} {options : Options} {i : Import}
    (h : i ∈ client.imports options) :
    i.isClient = true := by
  cases client with
  | apollo =>
      simp only [Client.imports, Apollo.imports, List.mem_cons, List.not_mem_nil, or_false] at h
      rcases h with rfl | rfl | rfl <;> rfl
  | urql =>
      simp only [Client.imports, Urql.imports, List.mem_cons, List.not_mem_nil, or_false] at h
      rcases h with rfl | rfl <;> rfl

namespace Collection

variable {c : Collection} {i : Import} {n : Naming}

theorem eq_fragments_of_mem (h : i ∈ c.fragmentImports n) :
    ∃ module constants, i = .fragments module constants := by
  obtain ⟨g, _, rfl⟩ := List.mem_map.mp h
  exact ⟨g.1, g.2, rfl⟩

theorem mem_referenced {s : String} : s ∈ c.referenced ↔ s ∈ c.spreads ∧ c.isImported s :=
  List.mem_filter

/-- The imports name the constants of the imported fragments that are referred to, and no others. -/
theorem fragmentImports_constants {module constant : String} :
    (∃ constants, .fragments module constants ∈ c.fragmentImports n ∧ constant ∈ constants) ↔
      ∃ f ∈ c.imported, f.name ∈ c.referenced ∧ f.module = module ∧
        n.fragmentConstant f.name = constant := by
  have hgrouped :
      (∃ constants, .fragments module constants ∈ c.fragmentImports n ∧ constant ∈ constants) ↔
      Grouped (groupConstants ((c.imported.filter fun f => c.referenced.contains f.name).map
        fun f => (f.module, n.fragmentConstant f.name))) module constant := by
    simp only [fragmentImports, Grouped, List.mem_map, Import.fragments.injEq, Prod.exists]
    constructor
    · rintro ⟨_, ⟨_, constants, hmem, rfl, rfl⟩, hconstant⟩
      exact ⟨constants, hmem, hconstant⟩
    · rintro ⟨constants, hmem, hconstant⟩
      exact ⟨constants, ⟨module, constants, hmem, rfl, rfl⟩, hconstant⟩
  rw [hgrouped, grouped_groupConstants]
  simp only [List.mem_map, List.mem_filter, List.contains_iff_mem, Prod.mk.injEq, and_assoc]

end Collection

end Composables
