import Composables.Proofs.Decimal.Nearest

/-
  The shortest decimal of a binary number: it reads back (`readsBack_shortest`), and it has no
  fraction if the number is whole (`exponent_shortest`).
-/

namespace Composables.Decimal

open Binary64 (IsNormal)

variable {m : ℕ} {q : ℤ} {tie : Tie} {e : ℤ} {d : Digits}

theorem roundDiv_eq_or (num den : ℕ) (tie : Tie) :
    roundDiv num den tie = num / den ∨ roundDiv num den tie = num / den + 1 := by
  unfold roundDiv
  dsimp only
  split
  · exact .inl rfl
  · exact .inr rfl
  · exact .inr rfl
  · split
    · exact .inl rfl
    · exact .inr rfl

theorem readsBack_of_onGrid? (h : onGrid? m q tie e = some d) : readsBack m q d := by
  unfold onGrid? at h
  dsimp only at h
  split at h
  · cases h
  · rename_i hlower _
    cases h
    exact hlower
  · rename_i _ hupper
    cases h
    exact hupper
  · rename_i hlower hupper
    cases h
    rcases roundDiv_eq_or (m * power 2 q * power 10 (-e)) (power 2 (-q) * power 10 e) tie
      with h | h
    · rwa [h]
    · rwa [h]

/-- Whether a decimal reads back depends on its value. -/
theorem readsBack_congr (hm : 0 < m) {d d' : Digits} (h : d.value = d'.value) :
    readsBack m q d = readsBack m q d' := by
  rw [Bool.eq_iff_iff, readsBack_iff hm, readsBack_iff hm, h]

theorem readsBack_of_value (hm : 0 < m) (h : d.value = m * 2 ^ q) : readsBack m q d := by
  have hgap : 0 < lowerGap m q := by
    unfold lowerGap
    split <;> norm_num
  rw [readsBack_iff hm, h, mul_div_cancel_right₀ _ (by positivity)]
  exact ⟨.inl (by linarith), .inl (by linarith)⟩

theorem value_exact (m : ℕ) (q : ℤ) :
    (⟨m * power 2 q * power 5 (-q), min q 0⟩ : Digits).value = m * 2 ^ q := by
  unfold Digits.value
  dsimp only
  rcases le_total 0 q with hq | hq
  · lift q to ℕ using hq
    simp [power_eq]
  · obtain ⟨n, rfl⟩ := Int.exists_eq_neg_ofNat hq
    have h10 : (10 : ℚ) ^ n = 2 ^ n * 5 ^ n := by rw [← mul_pow]; norm_num
    simp [power_eq, h10]
    field_simp

theorem value_dropZeros (n : ℕ) (d : Digits) : (dropZeros n d).value = d.value := by
  induction n generalizing d with
  | zero => rfl
  | succ n ih =>
      unfold dropZeros
      split
      · rename_i hzero
        rw [ih]
        unfold Digits.value
        obtain ⟨k, hk⟩ := Nat.dvd_of_mod_eq_zero hzero
        dsimp only
        rw [hk, Nat.mul_div_cancel_left k (by decide), zpow_add₀ (by norm_num)]
        push_cast
        ring
      · rfl

theorem exponent_le_dropZeros (n : ℕ) (d : Digits) : d.exponent ≤ (dropZeros n d).exponent := by
  induction n generalizing d with
  | zero => exact le_rfl
  | succ n ih =>
      unfold dropZeros
      split
      · exact le_trans (by dsimp only; omega) (ih _)
      · exact le_rfl

theorem readsBack_shortest (hm : 0 < m) (q : ℤ) (tie : Tie) : readsBack m q (shortest m q tie) := by
  unfold shortest
  dsimp only
  rw [readsBack_congr hm (value_dropZeros 17 _)]
  cases h : List.findSome? (onGrid? m q tie)
      ((List.range 17).map fun (n : ℕ) => scaleOf m q - (n + 1)) with
  | none => exact readsBack_of_value hm (value_exact m q)
  | some d =>
      obtain ⟨e, _, he⟩ := List.exists_of_findSome?_eq_some h
      exact readsBack_of_onGrid? he

/-! ## Whole numbers -/

/-- Whether `m · 2 ^ q` is a whole number. -/
def IsWhole (m : ℕ) (q : ℤ) : Prop := m % power 2 (-q) = 0

theorem isWhole_iff : IsWhole m q ↔ ∃ n : ℕ, (m * 2 ^ q : ℚ) = n := by
  have hp := power_pos (by decide : 0 < 2) (-q)
  have hcast : ∀ n : ℕ, (m * 2 ^ q : ℚ) = n ↔ m * power 2 q = n * power 2 (-q) := by
    intro n
    rw [← Nat.cast_inj (R := ℚ)]
    push_cast
    rw [cast_power (by decide) q, ← mul_assoc, mul_left_inj' (by exact_mod_cast hp.ne')]
    rfl
  simp only [hcast]
  unfold IsWhole
  rcases le_total 0 q with hq | hq
  · have h1 : power 2 (-q) = 1 := by rw [power_eq, Int.toNat_of_nonpos (by omega), pow_zero]
    rw [h1]
    exact ⟨fun _ => ⟨_, (mul_one _).symm⟩, fun _ => Nat.mod_one m⟩
  · have h1 : power 2 q = 1 := by rw [power_eq, Int.toNat_of_nonpos hq, pow_zero]
    rw [h1, mul_one, ← Nat.dvd_iff_mod_eq_zero, dvd_iff_exists_eq_mul_left]

/-- A decimal without a fraction does not stand for a number that has one. -/
theorem isWhole_of_readsBack (hm : 0 < m) (h : readsBack m q d) (hd : 0 ≤ d.exponent) :
    IsWhole m q := by
  rcases le_total 0 q with hq | hq
  · rw [IsWhole, power_eq, Int.toNat_of_nonpos (by omega), pow_zero, Nat.mod_one]
  · obtain ⟨i, hi⟩ := Int.eq_ofNat_of_zero_le hd
    obtain ⟨j, rfl⟩ := Int.exists_eq_neg_ofNat hq
    have hr := ((readsBack_iff hm _ d).mp h).wide
    -- both sides are multiples of the last place of the number
    have hvalue : d.value / 2 ^ (-j : ℤ) = (d.digits * 10 ^ i * 2 ^ j : ℕ) := by
      rw [Digits.value, hi]
      simp
    rw [hvalue] at hr
    have hlow := hr.le
    have hhigh := hr.ge
    have h1 : (m : ℚ) < (d.digits * 10 ^ i * 2 ^ j : ℕ) + 1 := by linarith
    have h2 : ((d.digits * 10 ^ i * 2 ^ j : ℕ) : ℚ) < m + 1 := by linarith
    have h1' : m < d.digits * 10 ^ i * 2 ^ j + 1 := by exact_mod_cast h1
    have h2' : d.digits * 10 ^ i * 2 ^ j < m + 1 := by exact_mod_cast h2
    have heq : m = d.digits * 10 ^ i * 2 ^ j := by omega
    rw [IsWhole, heq, power_eq, neg_neg, Int.toNat_natCast, Nat.mul_mod_left]

/-- On the grid of whole numbers a whole number is found. -/
theorem onGrid?_zero (hm : 0 < m) (h : IsWhole m q) (tie : Tie) : onGrid? m q tie 0 ≠ none := by
  obtain ⟨n, hn⟩ := isWhole_iff.mp h
  have hp := power_pos (by decide : 0 < 2) (-q)
  have hquotient : m * power 2 q * power 10 (-0) / (power 2 (-q) * power 10 0) = n := by
    have h1 : power 10 0 = 1 := rfl
    have hcast : m * power 2 q = n * power 2 (-q) := by
      rw [← Nat.cast_inj (R := ℚ)]
      push_cast
      rw [cast_power (by decide) q, ← mul_assoc]
      push_cast
      rw [hn]
    rw [neg_zero, h1, mul_one, mul_one, hcast, Nat.mul_div_cancel _ hp]
  have hlower : readsBack m q ⟨n, 0⟩ := by
    refine readsBack_of_value hm ?_
    rw [hn, Digits.value, zpow_zero, mul_one]
  unfold onGrid?
  dsimp only
  rw [hquotient, hlower]
  split <;> simp_all

theorem one_le_of_isWhole (hm : 0 < m) (h : IsWhole m q) : (1 : ℚ) ≤ m * 2 ^ q := by
  obtain ⟨n, hn⟩ := isWhole_iff.mp h
  have hpos : (0 : ℚ) < n := by
    rw [← hn]
    positivity
  rw [hn]
  exact_mod_cast (by exact_mod_cast hpos : 0 < n)

theorem scaleOf_pos (hm : 0 < m) (h : IsWhole m q) : 1 ≤ scaleOf m q := by
  have hlog : 0 ≤ m.log2 + q := by
    rcases le_total 0 q with hq | hq
    · omega
    · obtain ⟨j, rfl⟩ := Int.exists_eq_neg_ofNat hq
      have hdvd : 2 ^ j ∣ m := by
        have := Nat.dvd_of_mod_eq_zero h
        rwa [power_eq, neg_neg, Int.toNat_natCast] at this
      have := (Nat.le_log2 hm.ne').mpr (Nat.le_of_dvd hm hdvd)
      omega
  unfold scaleOf
  simp only [beq_iff_eq, compareScaled_eq_gt,
    Int.fdiv_eq_ediv_of_nonneg _ (by decide : (0 : ℤ) ≤ 100000)]
  have hguess : 0 ≤ (m.log2 + q) * 30103 / 100000 := by omega
  split
  · rename_i hfits
    rcases hguess.lt_or_eq with hpos | hzero
    · omega
    · -- a whole number is not below one
      rw [← hzero, zpow_zero] at hfits
      have := one_le_of_isWhole hm h
      norm_num at hfits
      linarith
  · split <;> omega

theorem scaleOf_le (hm : m < 2 ^ 53) (hq : q < 0) : scaleOf m q ≤ 17 := by
  have hlog : m.log2 ≤ 52 := by
    rcases Nat.eq_zero_or_pos m with rfl | hpos
    · decide
    · have := (Nat.log2_lt hpos.ne').mpr hm
      omega
  unfold scaleOf
  simp only [Int.fdiv_eq_ediv_of_nonneg _ (by decide : (0 : ℤ) ≤ 100000)]
  have hguess : (m.log2 + q) * 30103 / 100000 ≤ 15 := by omega
  split
  · omega
  · split <;> omega

/-- The shortest decimal of a whole number has no fraction. -/
theorem exponent_shortest (hm : 0 < m) (hn : IsNormal m q) (h : IsWhole m q) (tie : Tie) :
    0 ≤ (shortest m q tie).exponent := by
  have hpos := scaleOf_pos hm h
  unfold shortest
  dsimp only
  refine le_trans ?_ (exponent_le_dropZeros 17 _)
  set tries := (List.range 17).map fun (n : ℕ) => scaleOf m q - (n + 1) with htries
  have hmem : ∀ e : ℤ, e ∈ tries ↔ scaleOf m q - 17 ≤ e ∧ e < scaleOf m q := by
    intro e
    simp only [htries, List.mem_map, List.mem_range]
    constructor
    · rintro ⟨n, hn, rfl⟩
      omega
    · rintro ⟨hlow, hhigh⟩
      exact ⟨(scaleOf m q - 1 - e).toNat, by omega, by omega⟩
  have hsorted : tries.Pairwise (· > ·) := by
    rw [htries, List.pairwise_map]
    exact List.pairwise_lt_range.imp (by omega)
  cases hfind : tries.findSome? (onGrid? m q tie) with
  | some d =>
      obtain ⟨before, e, after, hsplit, he, hbefore⟩ := List.findSome?_eq_some_iff.mp hfind
      rw [Option.getD_some, exponent_of_onGrid?_eq_some he]
      by_contra hneg
      -- the grid of whole numbers was tried before
      have hzero : (0 : ℤ) ∈ tries := by
        have := (hmem e).mp (hsplit ▸ by simp)
        exact (hmem 0).mpr (by omega)
      rw [hsplit] at hzero hsorted
      rcases List.mem_append.mp hzero with hzero | hzero
      · exact onGrid?_zero hm h tie (hbefore 0 hzero)
      · rcases List.mem_cons.mp hzero with rfl | hzero
        · omega
        · have := List.rel_of_pairwise_cons (List.pairwise_append.mp hsorted).2.1 hzero
          omega
  | none =>
      rw [Option.getD_none]
      by_contra hneg
      have hq : q < 0 := by
        dsimp only at hneg
        omega
      have hle := scaleOf_le hn.bits hq
      have hzero : (0 : ℤ) ∈ tries := (hmem 0).mpr (by omega)
      exact onGrid?_zero hm h tie (List.findSome?_eq_none_iff.mp hfind 0 hzero)

/-- Whether a number is finite and not whole. -/
def Binary64.HasFraction : Binary64 → Prop
  | .finite _ m q => ¬ IsWhole m q
  | .infinite _ => False

instance (m : ℕ) (q : ℤ) : Decidable (IsWhole m q) := inferInstanceAs (Decidable (_ = _))

instance : DecidablePred Binary64.HasFraction
  | .finite _ m q => inferInstanceAs (Decidable (¬ IsWhole m q))
  | .infinite _ => inferInstanceAs (Decidable False)

end Composables.Decimal
