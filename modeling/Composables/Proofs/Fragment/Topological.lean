import Composables.Proofs.Fragment.Run
import Composables.Proofs.Graphql.Bare

/-
  Ordering fragments as topological sorting. The depth-first run always comes to an end. If no name
  stands for two fragments, it ends in an order just if all that is spread stands for something and
  no spreads lead back to where they start; otherwise its error names such spreads
  (`order_topological`).
-/

namespace Composables.Fragment

variable {fs out : List Fragment} {known : List String} {placed : List Nat} {e : Error}

/-! ## Orders that are found -/

/-- All that is spread stands for one of the fragments or is known from elsewhere. -/
def Closed (fs : List Fragment) (known : List String) : Prop :=
  ∀ f ∈ fs, ∀ d ∈ f.dependencies, d ∈ fs.map name ∨ d ∈ known

instance : Decidable (Closed fs known) :=
  inferInstanceAs (Decidable (∀ f ∈ fs, ∀ d ∈ f.dependencies, d ∈ fs.map name ∨ d ∈ known))

/-- Fragments in another order spread the same. -/
theorem spreads_perm (h : out.Perm fs) : Spreads out = Spreads fs := by
  funext a b
  exact propext ⟨fun ⟨f, hf, hab⟩ => ⟨f, h.mem_iff.mp hf, hab⟩,
    fun ⟨f, hf, hab⟩ => ⟨f, h.mem_iff.mpr hf, hab⟩⟩

/-- Fragments of different names that can be ordered are closed and make no cycle. Names that are
known from elsewhere too stand for the fragments. -/
theorem closed_of_order (hnames : (fs.map name).Nodup) (h : order fs known = .ok out) :
    Closed fs known ∧ Acyclic (Spreads fs) := by
  have hperm := perm_of_order h
  have hsupplied := supplied_of_order h
  have hout := (hperm.map name).nodup_iff.mpr hnames
  constructor
  · intro f hf d hd
    obtain ⟨front, back, hsplit⟩ := List.append_of_mem (hperm.mem_iff.mpr hf)
    by_cases hmem : d ∈ fs.map name
    · exact .inl hmem
    · exact .inr ((hsupplied front f back hsplit d hd).2 hmem)
  · have harranged : Arranged (known.filter (· ∉ fs.map name)) out := by
      refine hsupplied.imp fun front f _ hf d hd => ?_
      by_cases hmem : d ∈ fs.map name
      · exact .inl ((hf d hd).1 hmem)
      · exact .inr (List.mem_filter.mpr ⟨(hf d hd).2 hmem, decide_eq_true hmem⟩)
    rw [← spreads_perm hperm]
    refine harranged.acyclic hout fun d hd hmem => ?_
    exact of_decide_eq_true (List.mem_filter.mp hd).2 ((hperm.map name).mem_iff.mp hmem)

/-! ## Errors -/

/-- An error of ordering names a cycle, or a spread of a name that stands for nothing. -/
theorem truthful_of_order (hnames : (fs.map name).Nodup) (h : order fs known = .error e) :
    (∃ cycle, e = .circularFragment cycle ∧ IsCycle fs cycle) ∨ IsUnknown fs known e := by
  have hrun := wholeRun_iff.mpr (Outcome.map_eq_error.mp h)
  refine hrun.truthful hnames ⟨List.nodup_nil, .nil, by simp⟩ ?_
  intro call hcall
  obtain ⟨i, hi, rfl⟩ := List.mem_map.mp hcall
  exact ⟨List.mem_range.mp hi, by simp⟩

/-! ## The whole -/

/-- What ordering comes to is the end of the one depth-first run, whatever the fragments and
however often names come. Where no two fragments have one name, there is an order just if all that
is spread stands for something and no fragment spreads itself by way of others; it holds the same
fragments, each behind those of them that it spreads; and an error names a cycle, or a name that
stands for nothing and the place of a fragment that spreads it. -/
theorem order_topological (fs : List Fragment) (known : List String) :
    (∃ r, (∀ r', WholeRun fs known r' ↔ r' = r) ∧
      order fs known = r.map fun indices => indices.filterMap fun i => fs[i]?) ∧
    ((fs.map name).Nodup →
      ((∃ out, order fs known = .ok out) ↔ Closed fs known ∧ Acyclic (Spreads fs)) ∧
      (∀ out, order fs known = .ok out → out.Perm fs ∧
        Supplied (fun front f => ∀ d ∈ f.dependencies,
          d ∈ fs.map name → d ∈ front.map name) out) ∧
      ∀ e, order fs known = .error e →
        (∃ cycle, e = .circularFragment cycle ∧ IsCycle fs cycle) ∨ IsUnknown fs known e) := by
  refine ⟨⟨visitAll fs known, fun r' => ?_, rfl⟩, fun hnames => ⟨?_, ?_, ?_⟩⟩
  · rw [wholeRun_iff, eq_comm]
  · constructor
    · rintro ⟨out, hout⟩
      exact closed_of_order hnames hout
    · rintro ⟨hclosed, hacyclic⟩
      exact order_ok hacyclic hclosed
  · intro out hout
    refine ⟨perm_of_order hout, (supplied_of_order hout).imp ?_⟩
    exact fun front f _ hf d hd => (hf d hd).1
  · exact fun e => truthful_of_order hnames

/-- A family that spreads one fragment of its own in two ways, and one from elsewhere. -/
def family : List Fragment :=
  [⟨⟨"family.graphql"⟩, .bare "Parent" ["Child", "Pet"]⟩,
    ⟨⟨"family.graphql"⟩, .bare "Child" ["Name"]⟩,
    ⟨⟨"pet.graphql"⟩, .bare "Pet" ["Name", "Owner"]⟩, ⟨⟨"name.graphql"⟩, .bare "Name" []⟩]

/-- The same with a name that leads back into the family. -/
def tangle : List Fragment :=
  family.take 3 ++ [⟨⟨"name.graphql"⟩, .bare "Name" ["Pet"]⟩]

/-- The family has an order once the owner is known from elsewhere, and an error before. A name that
leads back makes a cycle, to which the parent only leads. -/
theorem order_topological_family :
    ((family.map name).Nodup ∧ (tangle.map name).Nodup) ∧
      (∃ out, order family ["Owner"] = .ok out) ∧ Acyclic (Spreads family) ∧
      (order family [] = .error (.unknownFragment "Owner" ⟨⟨"pet.graphql"⟩, .start⟩) ∧
        ¬ Closed family []) ∧
      order tangle ["Owner"] = .error (.circularFragment ["Name", "Pet", "Name"]) ∧
      IsCycle tangle ["Name", "Pet", "Name"] ∧ ¬ Acyclic (Spreads tangle) := by
  have hfamily : (family.map name).Nodup := by decide +kernel
  have htangle : (tangle.map name).Nodup := by decide +kernel
  have hok : ∃ out, order family ["Owner"] = .ok out := ⟨_, rfl⟩
  have hunknown : order family [] =
      .error (.unknownFragment "Owner" ⟨⟨"pet.graphql"⟩, .start⟩) := by
    cbv
  have hcircular : order tangle ["Owner"] = .error (.circularFragment ["Name", "Pet", "Name"]) := by
    cbv
  refine ⟨⟨hfamily, htangle⟩, hok, ?_, ⟨hunknown, ?_⟩, hcircular, ?_, ?_⟩
  · exact (((order_topological family ["Owner"]).2 hfamily).1.mp hok).2
  · intro hclosed
    have hacyclic := (((order_topological family ["Owner"]).2 hfamily).1.mp hok).2
    obtain ⟨out, hout⟩ := ((order_topological family []).2 hfamily).1.mpr ⟨hclosed, hacyclic⟩
    rw [hunknown] at hout
    cases hout
  · rcases ((order_topological tangle ["Owner"]).2 htangle).2.2 _ hcircular with
      ⟨cycle, hcycle, hiscycle⟩ | ⟨f, _, d, _, hunknown', _⟩
    · cases hcycle
      exact hiscycle
    · cases hunknown'
  · intro hacyclic
    obtain ⟨out, hout⟩ := ((order_topological tangle ["Owner"]).2 htangle).1.mpr
      ⟨by decide +kernel, hacyclic⟩
    rw [hcircular] at hout
    cases hout

end Composables.Fragment
