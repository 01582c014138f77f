import Mathlib.Data.List.Forall2

/-
  Taking outcomes apart: what a chain of steps that may fail did if it succeeded, and when it
  succeeds.
-/

namespace Composables.Outcome

variable {ε α β : Type}

theorem bind_eq_ok {x : Except ε α} {f : α → Except ε β} {b : β} :
    x >>= f = .ok b ↔ ∃ a, x = .ok a ∧ f a = .ok b := by
  cases x with
  | error e => simp [bind, Except.bind]
  | ok a => simp [bind, Except.bind]

theorem map_eq_ok {x : Except ε α} {f : α → β} {b : β} :
    x.map f = .ok b ↔ ∃ a, x = .ok a ∧ f a = b := by
  cases x with
  | error e => simp [Except.map]
  | ok a => simp [Except.map]

theorem map_eq_error {x : Except ε α} {f : α → β} {e : ε} : x.map f = .error e ↔ x = .error e := by
  cases x with
  | error e => simp [Except.map]
  | ok a => simp [Except.map]

theorem mapError_eq_ok {ε' : Type} {x : Except ε α} {f : ε → ε'} {a : α} :
    x.mapError f = .ok a ↔ x = .ok a := by
  cases x with
  | error e => simp [Except.mapError]
  | ok b => simp [Except.mapError]

/-! ## Outcomes seen through functions -/

section Bimap

variable {ε' α' β' : Type} {f : ε → ε'} {g : α → α'}

/-- An outcome with another value, or another error. -/
def bimap (f : ε → ε') (g : α → α') : Except ε α → Except ε' α'
  | .error e => .error (f e)
  | .ok a => .ok (g a)

/-- Steps that commute with what they are seen through do so one after the other. -/
theorem bind_eq_bimap {x : Except ε α} {x' : Except ε' α'} {k : α → Except ε β}
    {k' : α' → Except ε' β'} {h : β → β'} (hx : x' = bimap f g x)
    (hk : ∀ a, k' (g a) = bimap f h (k a)) : x' >>= k' = bimap f h (x >>= k) := by
  subst hx
  cases x with
  | error e => rfl
  | ok a => exact hk a

theorem map_eq_bimap {x : Except ε α} {x' : Except ε' α'} {k : α → β} {k' : α' → β'} {h : β → β'}
    (hx : x' = bimap f g x) (hk : ∀ a, k' (g a) = h (k a)) :
    x'.map k' = bimap f h (x.map k) := by
  subst hx
  cases x with
  | error e => rfl
  | ok a => exact congrArg Except.ok (hk a)

/-- A run commutes with what it is seen through if its steps do. -/
theorem foldlM_eq_bimap {step : β → α → Except ε β} {step' : β' → α' → Except ε' β'} {h : β → β'}
    (hstep : ∀ b a, step' (h b) (g a) = bimap f h (step b a)) (xs : List α) (b : β) :
    (xs.map g).foldlM step' (h b) = bimap f h (xs.foldlM step b) := by
  induction xs generalizing b with
  | nil => rfl
  | cons x xs ih =>
      rw [List.map_cons, List.foldlM_cons, List.foldlM_cons]
      exact bind_eq_bimap (hstep b x) ih

end Bimap

/-! ## Runs over lists -/

theorem foldlM_nil (f : β → α → Except ε β) (b : β) : [].foldlM f b = .ok b := rfl

theorem foldlM_singleton (f : β → α → Except ε β) (b : β) (a : α) : [a].foldlM f b = f b a := by
  rw [List.foldlM_cons]
  exact bind_pure (f b a)

/-- What each step of a fold keeps holds at its end. -/
theorem foldlM_invariant {f : β → α → Except ε β} {P : β → Prop} {xs : List α} {b c : β}
    (hstep : ∀ x ∈ xs, ∀ b c, f b x = .ok c → P b → P c) (h : xs.foldlM f b = .ok c) (hb : P b) :
    P c := by
  induction xs generalizing b with
  | nil => exact Except.ok.inj h ▸ hb
  | cons x xs ih =>
      rw [List.foldlM_cons, bind_eq_ok] at h
      obtain ⟨next, hnext, h⟩ := h
      rw [List.forall_mem_cons] at hstep
      exact ih hstep.2 h (hstep.1 b next hnext hb)

/-- A fold succeeds if each of its steps does. -/
theorem foldlM_ok {f : β → α → Except ε β} (xs : List α) (h : ∀ x ∈ xs, ∀ b, ∃ c, f b x = .ok c)
    (b : β) :
    ∃ c, xs.foldlM f b = .ok c := by
  induction xs generalizing b with
  | nil => exact ⟨b, rfl⟩
  | cons x xs ih =>
      obtain ⟨c, hc⟩ := h x (by simp) b
      obtain ⟨d, hd⟩ := ih (fun y hy => h y (by simp [hy])) c
      refine ⟨d, ?_⟩
      rw [List.foldlM_cons, bind_eq_ok]
      exact ⟨c, hc, hd⟩

/-- Folds whose steps agree where both succeed agree where both succeed. -/
theorem foldlM_unique {f g : β → α → Except ε β} {xs : List α} {b c d : β}
    (h : ∀ x ∈ xs, ∀ b c d, f b x = .ok c → g b x = .ok d → c = d) (hf : xs.foldlM f b = .ok c)
    (hg : xs.foldlM g b = .ok d) :
    c = d := by
  induction xs generalizing b with
  | nil => exact Except.ok.inj (hf.symm.trans hg)
  | cons x xs ih =>
      rw [List.foldlM_cons, bind_eq_ok] at hf hg
      obtain ⟨next, hnext, hf⟩ := hf
      obtain ⟨next', hnext', hg⟩ := hg
      obtain rfl := h x List.mem_cons_self b next next' hnext hnext'
      exact ih (fun y hy => h y (List.mem_cons_of_mem x hy)) hf hg

/-- What a step for each element of a list makes comes from one of them. -/
theorem mem_of_mapM {f : α → Except ε β} {xs : List α} {ys : List β} {y : β}
    (h : xs.mapM f = .ok ys) (hy : y ∈ ys) :
    ∃ x ∈ xs, f x = .ok y := by
  induction xs generalizing ys with
  | nil =>
      obtain rfl : [] = ys := Except.ok.inj h
      exact absurd hy List.not_mem_nil
  | cons x xs ih =>
      rw [List.mapM_cons, bind_eq_ok] at h
      obtain ⟨z, hz, h⟩ := h
      obtain ⟨zs, hzs, h⟩ := bind_eq_ok.mp h
      obtain rfl : z :: zs = ys := Except.ok.inj h
      rcases List.mem_cons.mp hy with rfl | hy
      · exact ⟨x, List.mem_cons_self, hz⟩
      · obtain ⟨x', hx', hfx'⟩ := ih hzs hy
        exact ⟨x', List.mem_cons_of_mem x hx', hfx'⟩

/-- A step for each element of a list makes something of each of them. -/
theorem exists_of_mapM {f : α → Except ε β} {xs : List α} {ys : List β} {x : α}
    (h : xs.mapM f = .ok ys) (hx : x ∈ xs) :
    ∃ y ∈ ys, f x = .ok y := by
  induction xs generalizing ys with
  | nil => exact absurd hx List.not_mem_nil
  | cons x' xs ih =>
      rw [List.mapM_cons, bind_eq_ok] at h
      obtain ⟨z, hz, h⟩ := h
      obtain ⟨zs, hzs, h⟩ := bind_eq_ok.mp h
      obtain rfl : z :: zs = ys := Except.ok.inj h
      rcases List.mem_cons.mp hx with rfl | hx
      · exact ⟨z, List.mem_cons_self, hz⟩
      · obtain ⟨y, hy, hfy⟩ := ih hzs hx
        exact ⟨y, List.mem_cons_of_mem z hy, hfy⟩

theorem mem_mapM_iff {f : α → Except ε β} {xs : List α} {ys : List β} {y : β}
    (h : xs.mapM f = .ok ys) : y ∈ ys ↔ ∃ x ∈ xs, f x = .ok y := by
  constructor
  · exact mem_of_mapM h
  · rintro ⟨x, hx, hy⟩
    obtain ⟨y', hy', hfx⟩ := exists_of_mapM h hx
    rw [hy] at hfx
    exact Except.ok.inj hfx ▸ hy'

/-- A step for each element succeeds for a list if it does for each element. -/
theorem mapM_ok {f : α → Except ε β} {p : α → β → Prop} (xs : List α)
    (h : ∀ x ∈ xs, ∃ y, f x = .ok y ∧ p x y) :
    ∃ ys, xs.mapM f = .ok ys ∧ List.Forall₂ p xs ys := by
  induction xs with
  | nil => exact ⟨[], rfl, .nil⟩
  | cons x xs ih =>
      obtain ⟨y, hy, hp⟩ := h x List.mem_cons_self
      obtain ⟨ys, hys, hps⟩ := ih fun z hz => h z (List.mem_cons_of_mem x hz)
      refine ⟨y :: ys, ?_, .cons hp hps⟩
      rw [List.mapM_cons, bind_eq_ok]
      exact ⟨y, hy, bind_eq_ok.mpr ⟨ys, hys, rfl⟩⟩

/-- A list for which one step succeeds has the same results of any step that makes as much of its
elements. -/
theorem mapM_mono {f g : α → Except ε β} {xs : List α} {ys : List β}
    (h : ∀ x ∈ xs, ∀ y, f x = .ok y → g x = .ok y) (hxs : xs.mapM f = .ok ys) :
    xs.mapM g = .ok ys := by
  induction xs generalizing ys with
  | nil => exact hxs
  | cons x xs ih =>
      rw [List.forall_mem_cons] at h
      rw [List.mapM_cons, bind_eq_ok] at hxs ⊢
      obtain ⟨y, hy, hrest⟩ := hxs
      obtain ⟨ys', hys', hresult⟩ := bind_eq_ok.mp hrest
      exact ⟨y, h.1 y hy, bind_eq_ok.mpr ⟨ys', ih h.2 hys', hresult⟩⟩

theorem toOption_mapM {γ : Type} {f : α → Except ε β} {g : α → Option γ} {k : β → γ}
    (h : ∀ a, (f a).toOption.map k = g a) (xs : List α) :
    (xs.mapM f).toOption.map (List.map k) = xs.mapM g := by
  induction xs with
  | nil => rfl
  | cons x xs ih =>
      rw [List.mapM_cons, List.mapM_cons, ← h x, ← ih]
      cases f x with
      | error => rfl
      | ok y => cases xs.mapM f <;> rfl

/-! ## Steps that change a state -/

variable {σ : Type} {s s' : σ} {e : ε}

theorem run_bind_eq_ok {x : EStateM ε σ α} {f : α → EStateM ε σ β} {b : β} :
    (x >>= f) s = .ok b s' ↔ ∃ a t, x s = .ok a t ∧ f a t = .ok b s' := by
  show EStateM.bind x f s = _ ↔ _
  unfold EStateM.bind
  cases x s <;> simp

/-- A chain fails in its first part or, after that, in its second. -/
theorem run_bind_eq_error {x : EStateM ε σ α} {f : α → EStateM ε σ β} :
    (x >>= f) s = .error e s' ↔
      x s = .error e s' ∨ ∃ a t, x s = .ok a t ∧ f a t = .error e s' := by
  show EStateM.bind x f s = _ ↔ _
  unfold EStateM.bind
  cases x s <;> simp

/-- A run over a list that fails succeeds up to the element whose step fails. -/
theorem run_mapM_eq_error {f : α → EStateM ε σ β} {xs : List α} (h : xs.mapM f s = .error e s') :
    ∃ front x back ys t, xs = front ++ x :: back ∧ front.mapM f s = .ok ys t ∧
      f x t = .error e s' := by
  induction xs generalizing s with
  | nil => cases h
  | cons x xs ih =>
      rw [List.mapM_cons] at h
      rcases run_bind_eq_error.mp h with hx | ⟨y, t, hx, h⟩
      · exact ⟨[], x, xs, [], s, rfl, rfl, hx⟩
      · rcases run_bind_eq_error.mp h with hxs | ⟨ys, t', _, h⟩
        · obtain ⟨front, x', back, ys, t', rfl, hfront, hfail⟩ := ih hxs
          refine ⟨x :: front, x', back, y :: ys, t', rfl, ?_, hfail⟩
          rw [List.mapM_cons]
          exact run_bind_eq_ok.mpr ⟨y, t, hx, run_bind_eq_ok.mpr ⟨ys, t', hfront, rfl⟩⟩
        · cases h

theorem run_ofExcept_eq_ok {x : Except ε α} {a : α} :
    (MonadExcept.ofExcept x : EStateM ε σ α) s = .ok a s' ↔ x = .ok a ∧ s' = s := by
  cases x with
  | error => exact ⟨nofun, nofun⟩
  | ok b =>
      constructor
      · intro h
        cases h
        exact ⟨rfl, rfl⟩
      · rintro ⟨h, rfl⟩
        cases h
        rfl

theorem run_ofExcept_eq_error {x : Except ε α} :
    (MonadExcept.ofExcept x : EStateM ε σ α) s = .error e s' ↔ x = .error e ∧ s' = s := by
  cases x with
  | ok => exact ⟨nofun, nofun⟩
  | error e' =>
      constructor
      · intro h
        cases h
        exact ⟨rfl, rfl⟩
      · rintro ⟨h, rfl⟩
        cases h
        rfl

end Composables.Outcome
