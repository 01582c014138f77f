import Composables.Proofs.Collection.Reachable

/-
  Following spreads without a bound. Where no way along spreads is a cycle the run comes to an end,
  and what it finds is what the run with a bound finds (`follows_iff`).
-/

namespace Composables.Collection

open Relation (ReflTransGen)

variable {c : Collection} {found found' next : List Fragment} {f : Fragment} {n : String}
  {ns path : List String} {room : Nat}

/-- Runs that follow names one after the other and nothing bounds: from what was found before they
come to what is found afterwards. -/
inductive Follows (c : Collection) : List Fragment → List String → List Fragment → Prop
  | nil {found : List Fragment} : Follows c found [] found
  | present {found found' : List Fragment} {n : String} {ns : List String}
      (old : n ∈ found.map Fragment.name) (rest : Follows c found ns found') :
      Follows c found (n :: ns) found'
  | unknown {found found' : List Fragment} {n : String} {ns : List String}
      (new : n ∉ found.map Fragment.name) (none : c.fragment? n = .none)
      (rest : Follows c found ns found') : Follows c found (n :: ns) found'
  | fragment {found below found' : List Fragment} {n : String} {ns : List String} {f : Fragment}
      (new : n ∉ found.map Fragment.name) (some : c.fragment? n = .some f)
      (deps : Follows c found f.dependencies below)
      (rest : Follows c (if below.any fun g => g.name == n then below else below ++ [f]) ns
        found') :
      Follows c found (n :: ns) found'

/-- There is one outcome at most. -/
theorem Follows.unique (h : Follows c found ns found') (h' : Follows c found ns next) :
    found' = next := by
  induction h generalizing next with
  | nil => cases h'; rfl
  | present old _ ih =>
      cases h' with
      | present _ rest => exact ih rest
      | unknown new => exact absurd old new
      | fragment new => exact absurd old new
  | unknown new none _ ih =>
      cases h' with
      | present old => exact absurd old new
      | unknown _ _ rest => exact ih rest
      | fragment _ some => rw [none] at some; cases some
  | fragment new some _ _ ihdeps ih =>
      cases h' with
      | present old => exact absurd old new
      | unknown _ none => rw [none] at some; cases some
      | fragment _ some' deps rest =>
          obtain rfl := Option.some.inj (some.symm.trans some')
          obtain rfl := ihdeps deps
          exact ih rest

theorem Follows.cons (h : Follows c found [n] next) (h' : Follows c next ns found') :
    Follows c found (n :: ns) found' := by
  cases h with
  | present old rest => cases rest; exact .present old h'
  | unknown new none rest => cases rest; exact .unknown new none h'
  | fragment new some deps rest => cases rest; exact .fragment new some deps h'

theorem follows_of_foldl {step : List Fragment → String → List Fragment}
    (hstep : ∀ n ∈ ns, ∀ found, Follows c found [n] (step found n)) :
    Follows c found ns (ns.foldl step found) := by
  induction ns generalizing found with
  | nil => exact .nil
  | cons n ns ih =>
      refine (hstep n List.mem_cons_self found).cons ?_
      exact ih fun m hm => hstep m (List.mem_cons_of_mem n hm)

/-- A run with a bound does what one without a bound does, as long as the way to a name is short of
the bound by as many steps as there are names. -/
theorem follows_reach (hacyclic : Acyclic c.Spreads) (hway : Way c.Spreads path n)
    (hroom : c.names.length < path.length + room) : Follows c found [n] (c.reach room found n) := by
  induction room generalizing path found n with
  | zero =>
      -- the way has used up all names, so that this one stands for nothing
      have hnone : c.fragment? n = none := by
        by_contra hsome
        rw [← ne_eq, ← Option.isSome_iff_ne_none] at hsome
        have hlt := hway.length_lt c.names hacyclic
          (fun a b ⟨f, hf, _⟩ => List.mem_append.mpr (fragment?_isSome.mp (hf ▸ rfl)))
          (List.mem_append.mpr (fragment?_isSome.mp hsome))
        omega
      show Follows c found [n] found
      by_cases hold : n ∈ found.map Fragment.name
      · exact .present hold .nil
      · exact .unknown hold hnone .nil
  | succ room ih =>
      rw [reach_succ]
      split
      · rename_i hany
        exact .present (any_name.mp hany) .nil
      · rename_i hany
        rw [any_name] at hany
        cases hf : c.fragment? n with
        | none => exact .unknown hany hf .nil
        | some f =>
            refine .fragment hany hf (follows_of_foldl fun d hd found => ?_) .nil
            refine ih (hway.step hacyclic ⟨f, hf, hd⟩) ?_
            rw [List.length_append, List.length_singleton]
            omega

/-- Without a cycle the run ends, whatever the names, and with what the bounded run finds. -/
theorem follows_iff (hacyclic : Acyclic c.Spreads) :
    Follows c [] ns found ↔ found = c.reachable ns := by
  have hrun : Follows c [] ns (c.reachable ns) := follows_of_foldl fun n _ found =>
    follows_reach hacyclic .nil (by simp [names])
  constructor
  · intro h
    exact h.unique hrun
  · rintro rfl
    exact hrun

/-! ## What a run looks at -/

/-- A run along spreads only looks at what it reaches. -/
theorem Follows.congr {c' : Collection} (h : Follows c found ns found')
    (hsame : ∀ n ∈ ns, ∀ m, ReflTransGen c.Spreads n m → c.fragment? m = c'.fragment? m) :
    Follows c' found ns found' := by
  induction h with
  | nil => exact .nil
  | present old _ ih => exact .present old (ih fun n hn => hsame n (List.mem_cons_of_mem _ hn))
  | unknown new none _ ih =>
      refine .unknown new ?_ (ih fun n hn => hsame n (List.mem_cons_of_mem _ hn))
      rw [← hsame _ List.mem_cons_self _ .refl, none]
  | fragment new some _ _ ihdeps ih =>
      refine .fragment new ?_ (ihdeps fun d hd m hm => ?_)
        (ih fun n hn => hsame n (List.mem_cons_of_mem _ hn))
      · rw [← hsame _ List.mem_cons_self _ .refl, some]
      · exact hsame _ List.mem_cons_self m (hm.head ⟨_, some, hd⟩)

theorem reachable_congr {c' : Collection} (hacyclic : Acyclic c.Spreads)
    (hacyclic' : Acyclic c'.Spreads)
    (hsame : ∀ n ∈ ns, ∀ m, ReflTransGen c.Spreads n m → c.fragment? m = c'.fragment? m) :
    c.reachable ns = c'.reachable ns :=
  (follows_iff hacyclic').mp (((follows_iff hacyclic).mpr rfl).congr hsame)

end Composables.Collection
