import Composables.Proofs.Fragment.Topological
import Mathlib.Order.Lattice.Nat

/-
  What an order keeps of the order of its input. Once the visits of the first fragments of the list
  are over, just what these reach has its place (`exists_front`), and whatever comes later is put
  behind. So fragments stand in the order of the first fragments that reach them
  (`pairwise_of_order`), and a list in which each fragment stands behind those it spreads comes out
  as it was.
-/

namespace Composables.Fragment

open Relation (ReflTransGen)

variable {fs out : List Fragment} {known : List String} {f g : Fragment} {i j k : Nat}

/-! ## First fragments that reach others -/

/-- Spreads lead from a fragment to another, or it is the same. -/
def Reaches (fs : List Fragment) (f g : Fragment) : Prop :=
  ReflTransGen (Spreads fs) f.name g.name

/-- The index of the first fragment of a list that reaches the given one. -/
noncomputable def firstReaching (fs : List Fragment) (f : Fragment) : Nat :=
  sInf {i | ∃ g, fs[i]? = some g ∧ Reaches fs g f}

theorem firstReaching_le (hg : fs[i]? = some g) (h : Reaches fs g f) : firstReaching fs f ≤ i :=
  Nat.sInf_le ⟨g, hg, h⟩

theorem reaches_firstReaching (hf : f ∈ fs) :
    ∃ g, fs[firstReaching fs f]? = some g ∧ Reaches fs g f := by
  obtain ⟨i, hi⟩ := List.mem_iff_getElem?.mp hf
  exact Nat.sInf_mem (s := {i | ∃ g, fs[i]? = some g ∧ Reaches fs g f}) ⟨i, f, hi, .refl⟩

theorem firstReaching_lt_iff (hf : f ∈ fs) :
    firstReaching fs f < k ↔ ∃ g ∈ fs.take k, Reaches fs g f := by
  constructor
  · intro hlt
    obtain ⟨g, hg, hreaches⟩ := reaches_firstReaching hf
    exact ⟨g, List.mem_of_getElem? ((List.getElem?_take_of_lt hlt).trans hg), hreaches⟩
  · rintro ⟨g, hg, hreaches⟩
    obtain ⟨i, hi⟩ := List.mem_iff_getElem?.mp hg
    have hlt : i < k := by
      by_contra hge
      rw [List.getElem?_take_eq_none (not_lt.mp hge)] at hi
      cases hi
    rw [List.getElem?_take_of_lt hlt] at hi
    exact (firstReaching_le hi hreaches).trans_lt hlt

theorem getElem?_inj (hnames : (fs.map name).Nodup) (hf : fs[i]? = some f) (hg : fs[j]? = some g)
    (h : f.name = g.name) : i = j := by
  have hi : i < (fs.map name).length := by
    rw [List.length_map]
    exact (List.getElem?_eq_some_iff.mp hf).1
  refine (List.getElem?_inj hi hnames).mp ?_
  rw [List.getElem?_map, List.getElem?_map, hf, hg, Option.map_some, Option.map_some, h]

theorem indexOf?_name (hnames : (fs.map name).Nodup) (hf : fs[i]? = some f) :
    indexOf? fs f.name = some i := by
  cases hindex : indexOf? fs f.name with
  | none =>
      exact absurd (List.mem_map_of_mem (List.mem_of_getElem? hf)) (indexOf?_eq_none.mp hindex)
  | some j =>
      obtain ⟨g, hg, hname⟩ := indexOf?_eq_some hindex
      rw [getElem?_inj hnames hg hf hname]

/-- Indices lead to each other as the names of their fragments do. -/
theorem reaches_iff (hnames : (fs.map name).Nodup) (hf : fs[i]? = some f) (hg : fs[j]? = some g) :
    ReflTransGen (Next fs) i j ↔ Reaches fs f g := by
  constructor
  · intro h
    unfold Reaches
    have hlift : ReflTransGen (Spreads fs) ((fs[i]?.map name).getD "")
        ((fs[j]?.map name).getD "") :=
      ReflTransGen.lift (fun i => (fs[i]?.map name).getD "") (fun _ _ => spreads_of_next) i j h
    rwa [hf, hg] at hlift
  · intro h
    unfold Reaches at h
    generalize ha : f.name = a at h
    induction h using ReflTransGen.head_induction_on generalizing i f with
    | refl => rw [getElem?_inj hnames hf hg ha]
    | head hstep hrest ih =>
        rename_i a b
        obtain ⟨f', hf', hname, hb⟩ := hstep
        obtain rfl : f' = f :=
          List.inj_on_of_nodup_map hnames hf' (List.mem_of_getElem? hf) (hname.trans ha.symm)
        -- the name that is spread leads on to a fragment or is its name
        obtain ⟨f₁, hf₁, rfl⟩ : ∃ f₁ ∈ fs, f₁.name = b := by
          rcases ReflTransGen.cases_head hrest with rfl | ⟨_, ⟨f₁, hf₁, hname₁, _⟩, _⟩
          · exact ⟨g, List.mem_of_getElem? hg, rfl⟩
          · exact ⟨f₁, hf₁, hname₁⟩
        obtain ⟨k, hk⟩ := List.mem_iff_getElem?.mp hf₁
        exact .head ⟨f', hf, _, hb, indexOf?_name hnames hk⟩ (ih hk rfl)

/-! ## The order -/

/-- In front stands what the first fragments of the list reach. -/
theorem exists_front (hnames : (fs.map name).Nodup) (h : order fs known = .ok out)
    (hk : k ≤ fs.length) :
    ∃ front, front <+: out ∧ ∀ f ∈ fs, f ∈ front ↔ firstReaching fs f < k := by
  obtain ⟨indices, hindices, rfl⟩ := Outcome.map_eq_ok.mp h
  have hrun := wholeRun_iff.mpr hindices
  obtain ⟨rest, hrest⟩ := Nat.exists_eq_add_of_le hk
  rw [WholeRun, hrest, List.range_add, List.map_append] at hrun
  obtain ⟨placed, hplaced, hbehind⟩ := hrun.split
  have hadds := hplaced.adds .nil
  -- the first visits place what they reach, and the others add to it behind
  have hmem : ∀ j, j ∈ placed ↔ ∃ i < k, ReflTransGen (Next fs) i j := by
    intro j
    constructor
    · intro hj
      obtain ⟨i, hi, hij⟩ := (hadds.reached j hj).resolve_left List.not_mem_nil
      obtain ⟨i', hi', heq⟩ := List.mem_map.mp hi
      cases heq
      exact ⟨i, List.mem_range.mp hi', hij⟩
    · rintro ⟨i, hi, hij⟩
      obtain ⟨i', hi', heq⟩ := hadds.complete _ (List.mem_map_of_mem (List.mem_range.mpr hi))
      cases heq
      exact hadds.sound.mem_of_reached hi' hij
  refine ⟨placed.filterMap fun i => fs[i]?, (hbehind.adds hadds.sound).front.filterMap _, ?_⟩
  intro f hf
  obtain ⟨j, hj⟩ := List.mem_iff_getElem?.mp hf
  rw [firstReaching_lt_iff hf, List.mem_filterMap]
  constructor
  · rintro ⟨j', hj', hfj'⟩
    obtain ⟨i, hi, hij⟩ := (hmem j').mp hj'
    have hlt : i < fs.length := hi.trans_le hk
    refine ⟨fs[i], List.mem_take_iff_getElem.mpr ⟨i, by omega, rfl⟩, ?_⟩
    exact (reaches_iff hnames (List.getElem?_eq_getElem hlt) hfj').mp hij
  · rintro ⟨g, hg, hreaches⟩
    obtain ⟨i, hi, rfl⟩ := List.mem_take_iff_getElem.mp hg
    have hi := Nat.lt_min.mp hi
    refine ⟨j, (hmem j).mpr ⟨i, hi.1, ?_⟩, hj⟩
    exact (reaches_iff hnames (List.getElem?_eq_getElem hi.2) hj).mpr hreaches

/-- The fragments of an order stand in the order of the first fragments that reach them. -/
theorem pairwise_of_order (hnames : (fs.map name).Nodup) (h : order fs known = .ok out) :
    out.Pairwise fun f g => firstReaching fs f ≤ firstReaching fs g := by
  have hperm := perm_of_order h
  have hnodup : out.Nodup := (hperm.map name).nodup_iff.mpr hnames |>.of_map
  rw [List.pairwise_iff_forall_sublist]
  intro f g hsublist
  have hf : f ∈ fs := hperm.mem_iff.mp (hsublist.subset (by simp))
  have hg : g ∈ fs := hperm.mem_iff.mp (hsublist.subset (by simp))
  have hlt : firstReaching fs g < fs.length := by
    obtain ⟨_, hget, _⟩ := reaches_firstReaching hg
    exact (List.getElem?_eq_some_iff.mp hget).1
  obtain ⟨front, ⟨back, rfl⟩, hfront⟩ := exists_front hnames h hlt
  -- the second stands in front, so the first does
  have hgfront := (hfront g hg).mpr (Nat.lt_succ_self _)
  have hffront := mem_left_of_sublist hnodup hsublist hgfront
  exact Nat.le_of_lt_succ ((hfront f hf).mp hffront)

/-- Where each fragment stands behind those it spreads, it is the first one that reaches it. -/
theorem firstReaching_eq (hnames : (fs.map name).Nodup)
    (hbehind : Supplied (fun front f => ∀ d ∈ f.dependencies,
      d ∈ fs.map name → d ∈ front.map name) fs) (hf : fs[i]? = some f) :
    firstReaching fs f = i := by
  have hstep : ∀ {j k}, Next fs j k → k < j := by
    rintro j k ⟨g, hg, d, hd, hk⟩
    obtain ⟨g', hg', rfl⟩ := indexOf?_eq_some hk
    have hfront := hbehind.take hg _ hd (List.mem_map_of_mem (List.mem_of_getElem? hg'))
    obtain ⟨g'', hg'', hname⟩ := List.mem_map.mp hfront
    obtain ⟨l, hl, rfl⟩ := List.mem_take_iff_getElem.mp hg''
    have hl := Nat.lt_min.mp hl
    obtain rfl := getElem?_inj hnames (List.getElem?_eq_getElem hl.2) hg' hname
    exact hl.1
  have hreach : ∀ {j}, ReflTransGen (Next fs) j i → i ≤ j := by
    intro j h
    induction h using ReflTransGen.head_induction_on with
    | refl => exact le_rfl
    | head hnext _ ih => exact ih.trans (hstep hnext).le
  obtain ⟨g, hg, hreaches⟩ := reaches_firstReaching (List.mem_of_getElem? hf)
  exact le_antisymm (firstReaching_le hf .refl) (hreach ((reaches_iff hnames hg hf).mpr hreaches))

/-- Fragments that stand behind those they spread keep their order. -/
theorem eq_of_behind (hnames : (fs.map name).Nodup) (h : order fs known = .ok out)
    (hbehind : Supplied (fun front f => ∀ d ∈ f.dependencies,
      d ∈ fs.map name → d ∈ front.map name) fs) : out = fs := by
  have hperm := perm_of_order h
  have hindex : ∀ f ∈ fs, fs[firstReaching fs f]? = some f := by
    intro f hf
    obtain ⟨i, hi⟩ := List.mem_iff_getElem?.mp hf
    rw [firstReaching_eq hnames hbehind hi, hi]
  have hsorted : fs.Pairwise fun f g => firstReaching fs f ≤ firstReaching fs g := by
    refine List.pairwise_iff_getElem.mpr fun i j hi hj hij => ?_
    rw [firstReaching_eq hnames hbehind (List.getElem?_eq_getElem hi),
      firstReaching_eq hnames hbehind (List.getElem?_eq_getElem hj)]
    exact hij.le
  refine List.Perm.eq_of_pairwise ?_ (pairwise_of_order hnames h) hsorted hperm
  intro f g hf hg hfg hgf
  have hf := hindex f (hperm.mem_iff.mp hf)
  rw [le_antisymm hfg hgf, hindex g hg] at hf
  exact (Option.some.inj hf).symm

/-- An order can be ordered again, and nothing moves. -/
theorem order_again (hnames : (fs.map name).Nodup) (h : order fs known = .ok out) :
    order out known = .ok out := by
  have hperm := perm_of_order h
  have hmem : ∀ d, d ∈ out.map name ↔ d ∈ fs.map name := fun d => (hperm.map name).mem_iff
  obtain ⟨hclosed, hacyclic⟩ := closed_of_order hnames h
  obtain ⟨out', hout'⟩ : ∃ out', order out known = .ok out' := by
    refine order_ok ((spreads_perm hperm).symm ▸ hacyclic) fun f hf d hd => ?_
    exact (hclosed f (hperm.mem_iff.mp hf) d hd).imp_left (hmem d).mpr
  have hbehind : Supplied (fun front f => ∀ d ∈ f.dependencies,
      d ∈ out.map name → d ∈ front.map name) out :=
    (supplied_of_order h).imp fun front f _ hf d hd hown => (hf d hd).1 ((hmem d).mp hown)
  rw [hout', eq_of_behind ((hperm.map name).nodup_iff.mpr hnames) hout' hbehind]

/-- Where no two fragments have one name, an order that is found is stable. Fragments that stand
behind those they spread keep their places, so that an order is its own order. In general a fragment
stands in front of another if the first fragment that reaches it comes before the first one that
reaches the other; so it overtakes an earlier one only if it is reached from there or from
before. -/
theorem order_stable (hnames : (fs.map name).Nodup) (h : order fs known = .ok out) :
    (Supplied (fun front f => ∀ d ∈ f.dependencies, d ∈ fs.map name → d ∈ front.map name) fs →
      out = fs) ∧
    order out known = .ok out ∧
    (∀ f ∈ fs, ∀ g ∈ fs, firstReaching fs f < firstReaching fs g → [f, g].Sublist out) ∧
    ∀ f g, [f, g].Sublist fs → [g, f].Sublist out →
      ∃ front back, fs = front ++ f :: back ∧ ∃ r ∈ front ++ [f], Reaches fs r g := by
  have hperm := perm_of_order h
  have hsorted : ∀ f g, [f, g].Sublist out → firstReaching fs f ≤ firstReaching fs g :=
    fun _ _ => List.pairwise_iff_forall_sublist.mp (pairwise_of_order hnames h)
  refine ⟨eq_of_behind hnames h, order_again hnames h, ?_, ?_⟩
  · intro f hf g hg hlt
    have hne : f ≠ g := fun heq => hlt.ne (congrArg (firstReaching fs) heq)
    refine (sublist_or_sublist (hperm.mem_iff.mpr hf) (hperm.mem_iff.mpr hg) hne).resolve_right ?_
    exact fun hgf => absurd (hsorted g f hgf) (not_le.mpr hlt)
  · intro f g hfg hgf
    have hf : f ∈ fs := hfg.subset (by simp)
    have hg : g ∈ fs := hfg.subset (by simp)
    obtain ⟨i, hi, rfl⟩ := List.mem_iff_getElem.mp hf
    refine ⟨fs.take i, fs.drop (i + 1), ?_, ?_⟩
    · rw [List.getElem_cons_drop, List.take_append_drop]
    · rw [List.take_append_getElem]
      have hle := firstReaching_le (List.getElem?_eq_getElem hi) (.refl : Reaches fs fs[i] fs[i])
      exact (firstReaching_lt_iff hg).mp (Nat.lt_succ_of_le ((hsorted g _ hgf).trans hle))

/-- An album with a fragment in front that spreads the last one, and one that spreads what is known
from elsewhere. -/
def cover : Fragment := ⟨⟨"album.graphql"⟩, .bare "Cover" ["Image"]⟩

def track : Fragment := ⟨⟨"album.graphql"⟩, .bare "Track" ["Artist"]⟩

def artist : Fragment := ⟨⟨"artist.graphql"⟩, .bare "Artist" ["Label"]⟩

def image : Fragment := ⟨⟨"image.graphql"⟩, .bare "Image" []⟩

def album : List Fragment := [cover, track, artist, image]

/-- The image comes before the artist, since the cover comes before the track: it overtakes two
fragments that do not spread it. In the order that is found nothing moves any more. -/
theorem order_stable_album :
    (album.map name).Nodup ∧
      order album ["Label"] = .ok [image, cover, artist, track] ∧
      order [image, cover, artist, track] ["Label"] = .ok [image, cover, artist, track] ∧
      firstReaching album image < firstReaching album artist ∧
      [image, artist].Sublist [image, cover, artist, track] ∧
      ∃ front back, album = front ++ artist :: back ∧ ∃ r ∈ front ++ [artist],
        Reaches album r image := by
  have hnames : (album.map name).Nodup := by decide +kernel
  have horder : order album ["Label"] = .ok [image, cover, artist, track] := by cbv
  have himage : Reaches album cover image :=
    .single ⟨cover, List.mem_cons_self, rfl, by decide +kernel⟩
  -- what the cover spreads leads to no artist
  have hcover : ¬ Reaches album cover artist := by
    have hclosed : ∀ f ∈ album, f.name ∈ ["Cover", "Image"] →
        ∀ d ∈ f.dependencies, d ∈ ["Cover", "Image"] := by decide +kernel
    intro hreaches
    have hmem : artist.name ∈ ["Cover", "Image"] := by
      unfold Reaches at hreaches
      generalize artist.name = n at hreaches
      induction hreaches with
      | refl => decide +kernel
      | tail _ hstep ih =>
          obtain ⟨f, hf, rfl, hd⟩ := hstep
          exact hclosed f hf ih _ hd
    exact absurd hmem (by decide +kernel)
  have hlt : firstReaching album image < firstReaching album artist := by
    have hzero : firstReaching album image = 0 :=
      Nat.le_zero.mp (firstReaching_le (i := 0) rfl himage)
    rw [hzero, Nat.pos_iff_ne_zero]
    intro hfirst
    have hartist : artist ∈ album := by simp [album]
    obtain ⟨g, hg, hreaches⟩ := reaches_firstReaching hartist
    rw [hfirst] at hg
    cases hg
    exact hcover hreaches
  obtain ⟨_, hagain, hbefore, hovertakes⟩ := order_stable hnames horder
  have hsublist := hbefore image (by simp [album]) artist (by simp [album]) hlt
  exact ⟨hnames, horder, hagain, hlt, hsublist,
    hovertakes artist image (by simp [album]) hsublist⟩

end Composables.Fragment
