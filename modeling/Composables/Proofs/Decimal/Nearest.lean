import Composables.Decimal.Shortest
import Mathlib.Algebra.Order.Field.Power
import Mathlib.Data.Rat.Cast.Order
import Mathlib.Tactic

/-
  Reading a decimal to the nearest binary number. What rounds to a number in normal form is read as
  that number (`ofRatio_eq`), so a decimal that is said to read back does (`ofScientific_eq`); and
  whatever is read is in normal form (`normal_ofScientific`).
-/

namespace Composables.Decimal

theorem power_pos {b : ℕ} (hb : 0 < b) (e : ℤ) : 0 < power b e := Nat.pow_pos hb

theorem power_eq (b : ℕ) (e : ℤ) : power b e = b ^ e.toNat := rfl

/-- A power stands in the numerator or, with the opposite exponent, in the denominator. -/
theorem cast_power {b : ℕ} (hb : 0 < b) (e : ℤ) :
    (power b e : ℚ) = b ^ e * power b (-e) := by
  have hb' : (b : ℚ) ≠ 0 := by positivity
  rcases le_total 0 e with he | he
  · lift e to ℕ using he
    simp [power_eq]
  · obtain ⟨n, rfl⟩ := Int.exists_eq_neg_ofNat he
    simp [power_eq, hb']

/-- The exact value. -/
def Digits.value (d : Digits) : ℚ := d.digits * 10 ^ d.exponent

section compareScaled

variable (a n : ℕ) (i j : ℤ)

theorem scale_eq : ∃ c : ℚ, 0 < c ∧
    ((a * power 10 i * power 2 (-j) : ℕ) : ℚ) = a * 10 ^ i * c ∧
    ((n * power 2 j * power 10 (-i) : ℕ) : ℚ) = n * 2 ^ j * c := by
  have hi := power_pos (by decide : 0 < 10) (-i)
  have hj := power_pos (by decide : 0 < 2) (-j)
  refine ⟨power 10 (-i) * power 2 (-j), by positivity, ?_, ?_⟩
  · push_cast
    rw [cast_power (by decide) i]
    push_cast
    ring
  · push_cast
    rw [cast_power (by decide) j]
    push_cast
    ring

theorem compareScaled_eq_lt :
    compareScaled a i n j = .lt ↔ (a : ℚ) * 10 ^ i < n * 2 ^ j := by
  obtain ⟨c, hc, ha, hn⟩ := scale_eq a n i j
  rw [compareScaled, Nat.compare_eq_lt, ← Nat.cast_lt (α := ℚ), ha, hn, mul_lt_mul_iff_left₀ hc]

theorem compareScaled_eq_eq :
    compareScaled a i n j = .eq ↔ (a : ℚ) * 10 ^ i = n * 2 ^ j := by
  obtain ⟨c, hc, ha, hn⟩ := scale_eq a n i j
  rw [compareScaled, Nat.compare_eq_eq, ← Nat.cast_inj (R := ℚ), ha, hn,
    mul_left_inj' hc.ne']

theorem compareScaled_eq_gt :
    compareScaled a i n j = .gt ↔ (n : ℚ) * 2 ^ j < a * 10 ^ i := by
  obtain ⟨c, hc, ha, hn⟩ := scale_eq a n i j
  rw [compareScaled, Nat.compare_eq_gt, ← Nat.cast_lt (α := ℚ), ha, hn, mul_lt_mul_iff_left₀ hc]

end compareScaled

/-- A real rounds to a natural number: it is nearer to it than to its neighbours, or as near and the
number is even. The lower neighbour may be nearer than one. -/
structure RoundsTo (gap x : ℚ) (m : ℕ) : Prop where
  below : m - gap / 2 < x ∨ m - gap / 2 = x ∧ m % 2 = 0
  above : x < m + 1 / 2 ∨ x = m + 1 / 2 ∧ m % 2 = 0

/-- How far the lower neighbour of a number in normal form is. -/
def lowerGap (m : ℕ) (q : ℤ) : ℚ :=
  if m = Binary64.leastNormal ∧ Binary64.leastExponent < q then 1 / 2 else 1

theorem readsBack_iff {m : ℕ} (hm : 0 < m) (q : ℤ) (d : Digits) :
    readsBack m q d ↔ RoundsTo (lowerGap m q) (d.value / 2 ^ q) m := by
  have h2 : (0 : ℚ) < 2 ^ q := by positivity
  have hlow : ((if m = Binary64.leastNormal ∧ Binary64.leastExponent < q then 4 * m - 1
      else 4 * m - 2 : ℕ) : ℚ) * 2 ^ (q - 2) = (m - lowerGap m q / 2) * 2 ^ q := by
    rw [zpow_sub₀ (by norm_num), lowerGap]
    split
    · rw [Nat.cast_sub (by omega)]
      push_cast
      ring
    · rw [Nat.cast_sub (by omega)]
      push_cast
      ring
  have hhigh : ((4 * m + 2 : ℕ) : ℚ) * 2 ^ (q - 2) = (m + 1 / 2) * 2 ^ q := by
    rw [zpow_sub₀ (by norm_num)]
    push_cast
    ring
  unfold readsBack
  dsimp only
  simp only [Bool.and_eq_true, Bool.or_eq_true, beq_iff_eq, decide_eq_true_eq,
    compareScaled_eq_gt, compareScaled_eq_lt, compareScaled_eq_eq, hlow, hhigh]
  rw [← Digits.value]
  constructor
  · rintro ⟨hb, ha⟩
    refine ⟨?_, ?_⟩
    · rw [lt_div_iff₀ h2, eq_div_iff h2.ne']
      rcases hb with h | ⟨he, h⟩
      · exact .inl h
      · exact .inr ⟨h.symm, he⟩
    · rw [div_lt_iff₀ h2, div_eq_iff h2.ne']
      rcases ha with h | ⟨he, h⟩
      · exact .inl h
      · exact .inr ⟨h, he⟩
  · rintro ⟨hb, ha⟩
    rw [lt_div_iff₀ h2, eq_div_iff h2.ne'] at hb
    rw [div_lt_iff₀ h2, div_eq_iff h2.ne'] at ha
    refine ⟨?_, ?_⟩
    · rcases hb with h | ⟨h, he⟩
      · exact .inl h
      · exact .inr ⟨he, h.symm⟩
    · rcases ha with h | ⟨h, he⟩
      · exact .inl h
      · exact .inr ⟨he, h⟩

/-! ## Rounding a quotient -/

section roundDiv

variable {num den m : ℕ}

/-- The lower bound of a rounded quotient, without fractions. -/
theorem RoundsTo.below_mul (hden : 0 < den) (h : RoundsTo 1 ((num : ℚ) / den) m) :
    2 * (den * m) < 2 * num + den ∨ 2 * (den * m) = 2 * num + den ∧ m % 2 = 0 := by
  have hd : (0 : ℚ) < den := by exact_mod_cast hden
  rcases h.below with hlt | ⟨heq, he⟩
  · rw [lt_div_iff₀ hd] at hlt
    have : (2 * (den * m) : ℚ) < 2 * num + den := by linarith
    exact .inl (by exact_mod_cast this)
  · rw [eq_div_iff hd.ne'] at heq
    have : (2 * (den * m) : ℚ) = 2 * num + den := by linarith
    exact .inr ⟨by exact_mod_cast this, he⟩

/-- The upper bound of a rounded quotient, without fractions. -/
theorem RoundsTo.above_mul (hden : 0 < den) (h : RoundsTo 1 ((num : ℚ) / den) m) :
    2 * num < 2 * (den * m) + den ∨ 2 * num = 2 * (den * m) + den ∧ m % 2 = 0 := by
  have hd : (0 : ℚ) < den := by exact_mod_cast hden
  rcases h.above with hlt | ⟨heq, he⟩
  · rw [div_lt_iff₀ hd] at hlt
    have : (2 * num : ℚ) < 2 * (den * m) + den := by linarith
    exact .inl (by exact_mod_cast this)
  · rw [div_eq_iff hd.ne'] at heq
    have : (2 * num : ℚ) = 2 * (den * m) + den := by linarith
    exact .inr ⟨by exact_mod_cast this, he⟩

/-- A quotient rounds to its whole part or to the number above that. -/
theorem RoundsTo.div_eq_or (hden : 0 < den) (h : RoundsTo 1 ((num : ℚ) / den) m) :
    num / den = m ∨ num / den + 1 = m := by
  have hbelow := h.below_mul hden
  have habove := h.above_mul hden
  have hr := Nat.mod_lt num hden
  have hnum := Nat.div_add_mod num den
  rcases Nat.lt_trichotomy (num / den) m with hlt | heq | hgt
  · right
    by_contra hne
    have : den * (num / den + 2) ≤ den * m := Nat.mul_le_mul_left _ (by omega)
    rw [Nat.mul_add] at this
    omega
  · exact .inl heq
  · have : den * (m + 1) ≤ den * (num / den) := Nat.mul_le_mul_left _ (by omega)
    rw [Nat.mul_add] at this
    omega

theorem roundDiv_eq (hden : 0 < den) (h : RoundsTo 1 ((num : ℚ) / den) m) :
    roundDiv num den .toEven = m := by
  have hbelow := h.below_mul hden
  have habove := h.above_mul hden
  have hnum := Nat.div_add_mod num den
  unfold roundDiv
  dsimp only
  -- what is left over is compared with one half; a tie goes to the even number
  rcases h.div_eq_or hden with rfl | rfl
  · split
    · rfl
    · rename_i hcmp
      rw [Nat.compare_eq_gt] at hcmp
      omega
    · rename_i hcmp _
      contradiction
    · rename_i hcmp _
      rw [Nat.compare_eq_eq] at hcmp
      rw [if_pos (by omega)]
  · rw [Nat.mul_add] at hbelow habove
    split
    · rename_i hcmp
      rw [Nat.compare_eq_lt] at hcmp
      omega
    · rfl
    · rfl
    · rename_i hcmp _
      rw [Nat.compare_eq_eq] at hcmp
      rw [if_neg (by omega)]

end roundDiv

namespace RoundsTo

variable {gap x : ℚ} {m : ℕ}

theorem le (h : RoundsTo gap x m) : m - gap / 2 ≤ x := by
  rcases h.below with h | ⟨h, -⟩ <;> linarith

theorem ge (h : RoundsTo gap x m) : x ≤ m + 1 / 2 := by
  rcases h.above with h | ⟨h, -⟩ <;> linarith

theorem wide {q : ℤ} (h : RoundsTo (lowerGap m q) x m) : RoundsTo 1 x m := by
  refine ⟨?_, h.above⟩
  have hbelow := h.below
  unfold lowerGap at hbelow
  split at hbelow
  · rcases hbelow with h | ⟨h, -⟩
    · exact .inl (by linarith)
    · exact .inl (by linarith)
  · exact hbelow

end RoundsTo

namespace Binary64

theorem leadingBit_spec {num den : ℕ} (hnum : 0 < num) (hden : 0 < den) :
    (2 : ℚ) ^ leadingBit num den ≤ num / den ∧
      (num : ℚ) / den < 2 ^ (leadingBit num den + 1) := by
  have hd : (0 : ℚ) < den := by exact_mod_cast hden
  set b : ℤ := num.log2 - den.log2 with hb
  have hlog : ∀ {n : ℕ}, 0 < n → (2 : ℚ) ^ (n.log2 : ℤ) ≤ n ∧ (n : ℚ) < 2 ^ (n.log2 + 1 : ℤ) := by
    intro n hn
    have hlow := Nat.log2_self_le hn.ne'
    have hhigh := Nat.lt_log2_self (n := n)
    refine ⟨by rw [zpow_natCast]; exact_mod_cast hlow, ?_⟩
    have : (n : ℚ) < 2 ^ (n.log2 + 1) := by exact_mod_cast hhigh
    exact_mod_cast this
  obtain ⟨hn0, hn1⟩ := hlog hnum
  obtain ⟨hd0, hd1⟩ := hlog hden
  have hlow : (2 : ℚ) ^ (b - 1) ≤ num / den := by
    rw [le_div_iff₀ hd]
    calc (2 : ℚ) ^ (b - 1) * den ≤ 2 ^ (b - 1) * 2 ^ (den.log2 + 1 : ℤ) := by gcongr
      _ = 2 ^ (num.log2 : ℤ) := by rw [← zpow_add₀ (by norm_num), hb]; congr 1; ring
      _ ≤ num := hn0
  have hhigh : (num : ℚ) / den < 2 ^ (b + 1) := by
    rw [div_lt_iff₀ hd]
    calc (num : ℚ) < 2 ^ (num.log2 + 1 : ℤ) := hn1
      _ = 2 ^ (b + 1) * 2 ^ (den.log2 : ℤ) := by rw [← zpow_add₀ (by norm_num), hb]; congr 1; ring
      _ ≤ 2 ^ (b + 1) * den := by gcongr
  have hcond : num * power 2 (-b) < den * power 2 b ↔ (num : ℚ) / den < 2 ^ b := by
    have hp : (0 : ℚ) < power 2 (-b) := by exact_mod_cast power_pos (by decide) _
    rw [← Nat.cast_lt (α := ℚ)]
    push_cast
    rw [cast_power (by decide) b, div_lt_iff₀ hd]
    push_cast
    rw [mul_comm _ (den : ℚ), ← mul_assoc, mul_lt_mul_iff_left₀ hp]
  unfold leadingBit
  dsimp only
  rw [← hb]
  split
  · rename_i h
    rw [sub_add_cancel]
    exact ⟨hlow, hcond.mp h⟩
  · rename_i h
    exact ⟨not_lt.mp (mt hcond.mpr h), hhigh⟩

theorem leadingBit_eq {num den : ℕ} (hnum : 0 < num) (hden : 0 < den) {b : ℤ}
    (hlow : (2 : ℚ) ^ b ≤ num / den) (hhigh : (num : ℚ) / den < 2 ^ (b + 1)) :
    leadingBit num den = b := by
  obtain ⟨h0, h1⟩ := leadingBit_spec hnum hden
  have h2 := (zpow_lt_zpow_iff_right₀ (by norm_num : (1 : ℚ) < 2)).mp (h0.trans_lt hhigh)
  have h3 := (zpow_lt_zpow_iff_right₀ (by norm_num : (1 : ℚ) < 2)).mp (hlow.trans_lt h1)
  omega

theorem leastNormal_eq : leastNormal = 2 ^ 52 := rfl

/-- Numbers as the operations build them: a significand of at most 53 bits, which are 53 unless the
exponent is the least one. -/
structure IsNormal (m : ℕ) (q : ℤ) : Prop where
  bits : m < 2 ^ 53
  least : leastExponent ≤ q
  greatest : q ≤ greatestExponent
  normal : 2 ^ 52 ≤ m ∨ q = leastExponent

theorem cast_quotient (num den : ℕ) (q : ℤ) :
    ((num * power 2 (-q) : ℕ) : ℚ) / (den * power 2 q : ℕ) = num / den / 2 ^ q := by
  have hp : (power 2 (-q) : ℚ) ≠ 0 := by exact_mod_cast (power_pos (by decide) (-q)).ne'
  push_cast
  rw [cast_power (by decide) q]
  push_cast
  rw [← mul_assoc, mul_div_mul_right _ _ hp, div_div]

section ofRatio

variable {s : Bool} {num den m : ℕ} {q : ℤ}

/-- Where the quotient has a significand of 53 bits at the exponent of the number, or no less
exponent is left, it is rounded there. -/
theorem ofRatio_eq_at (hnum : 0 < num) (hden : 0 < den) (hn : IsNormal m q)
    (h : RoundsTo (lowerGap m q) (num / den / 2 ^ q) m)
    (hlow : (2 : ℚ) ^ (q + 52) ≤ num / den ∨ q = leastExponent) :
    ofRatio s num den = .finite s m q := by
  have hq : (0 : ℚ) < 2 ^ q := by positivity
  have hm : (m : ℚ) + 1 ≤ 2 ^ 53 := by exact_mod_cast hn.bits
  have hgreatest := hn.greatest
  have hleast := hn.least
  have hhigh : (num : ℚ) / den < 2 ^ (q + 53) := by
    have hge := h.ge
    rw [div_le_iff₀ hq] at hge
    refine hge.trans_lt ?_
    rw [zpow_add₀ (by norm_num), mul_comm]
    exact mul_lt_mul_of_pos_left (by norm_num at hm ⊢; linarith) hq
  have hexponent : max (leadingBit num den - (precision - 1)) leastExponent = q := by
    rcases hlow with hlow | hleast
    · rw [leadingBit_eq hnum hden hlow (by rwa [add_assoc])]
      norm_num [precision]
      exact hleast
    · have hbit := (leadingBit_spec hnum hden).1.trans_lt hhigh
      rw [zpow_lt_zpow_iff_right₀ (by norm_num)] at hbit
      simp only [precision]
      omega
  have hround : roundDiv (num * power 2 (-q)) (den * power 2 q) .toEven = m :=
    roundDiv_eq (Nat.mul_pos hden (power_pos (by decide) q)) (by rw [cast_quotient]; exact h.wide)
  have hcarry : m ≠ 2 * leastNormal := by
    have := hn.bits
    rw [leastNormal_eq]
    omega
  unfold ofRatio
  rw [if_neg hnum.ne']
  dsimp only
  rw [hexponent, hround, if_neg hcarry]
  dsimp only
  rw [if_neg (by omega)]

/-- Only a power of two has less than 53 bits in what rounds to it. -/
theorem eq_leastNormal_of_lt {y : ℚ} (hn : IsNormal m q) (h : RoundsTo (lowerGap m q) y m)
    (hy : y < 2 ^ 52) (hne : q ≠ leastExponent) : m = leastNormal ∧ 2 ^ 52 - 1 / 4 ≤ y := by
  have hm : m = leastNormal := by
    have hbelow := h.wide.le
    have hlt : (m : ℚ) < 2 ^ 52 + 1 := by linarith
    have hlt' : m < 2 ^ 52 + 1 := by exact_mod_cast hlt
    have hge := hn.normal.resolve_right hne
    rw [leastNormal_eq]
    omega
  have hleast := hn.least
  have hbelow := h.le
  rw [lowerGap, if_pos ⟨hm, by omega⟩, hm, leastNormal_eq] at hbelow
  push_cast at hbelow
  exact ⟨hm, by linarith⟩

/-- One exponent lower, a number just below a power of two is rounded up to that power. -/
theorem roundsTo_two_mul {y : ℚ} (hlow : 2 ^ 52 - 1 / 4 ≤ y) (hy : y < 2 ^ 52) :
    RoundsTo 1 (2 * y) (2 * leastNormal) := by
  rw [leastNormal_eq]
  constructor
  case below =>
    push_cast
    rcases lt_or_eq_of_le hlow with h | h
    · exact .inl (by linarith)
    · exact .inr ⟨by linarith, by decide⟩
  case above =>
    push_cast
    exact .inl (by linarith)

theorem ofRatio_eq_below (hnum : 0 < num) (hden : 0 < den) (hn : IsNormal m q)
    (h : RoundsTo (lowerGap m q) (num / den / 2 ^ q) m)
    (hlow : (num : ℚ) / den < 2 ^ (q + 52)) (hne : q ≠ leastExponent) :
    ofRatio s num den = .finite s m q := by
  have hq : (0 : ℚ) < 2 ^ q := by positivity
  have hgreatest := hn.greatest
  have hleast := hn.least
  obtain ⟨y, hy⟩ : ∃ y : ℚ, (num : ℚ) / den = y * 2 ^ q := ⟨_, (div_mul_cancel₀ _ hq.ne').symm⟩
  rw [hy, mul_div_cancel_right₀ _ hq.ne'] at h
  have hy52 : y < 2 ^ 52 := by
    rw [hy, zpow_add₀ (by norm_num), mul_comm] at hlow
    exact_mod_cast lt_of_mul_lt_mul_left hlow hq.le
  obtain ⟨hm, hbelow⟩ := eq_leastNormal_of_lt hn h hy52 hne
  have hbit : leadingBit num den = q + 51 := by
    refine leadingBit_eq hnum hden ?_ (hlow.trans_eq (by ring_nf))
    rw [hy, zpow_add₀ (by norm_num), mul_comm]
    refine mul_le_mul_of_nonneg_right ?_ hq.le
    norm_num at hbelow ⊢
    linarith
  have hexponent : max (leadingBit num den - (precision - 1)) leastExponent = q - 1 := by
    rw [hbit]
    simp only [precision]
    omega
  have hround : roundDiv (num * power 2 (-(q - 1))) (den * power 2 (q - 1)) .toEven =
      2 * leastNormal := by
    refine roundDiv_eq (Nat.mul_pos hden (power_pos (by decide) _)) ?_
    have hy2 : (num : ℚ) / den / 2 ^ (q - 1) = 2 * y := by
      rw [hy, zpow_sub₀ (by norm_num)]
      field_simp
    rw [cast_quotient, hy2]
    exact roundsTo_two_mul hbelow hy52
  unfold ofRatio
  rw [if_neg hnum.ne']
  dsimp only
  rw [hexponent, hround, if_pos rfl]
  dsimp only
  rw [sub_add_cancel, if_neg (by omega), hm]

/-- What rounds to a number in normal form is read as that number. -/
theorem ofRatio_eq (hnum : 0 < num) (hden : 0 < den) (hn : IsNormal m q)
    (h : RoundsTo (lowerGap m q) (num / den / 2 ^ q) m) : ofRatio s num den = .finite s m q := by
  by_cases hlow : (2 : ℚ) ^ (q + 52) ≤ num / den ∨ q = leastExponent
  · exact ofRatio_eq_at hnum hden hn h hlow
  · rw [not_or, not_le] at hlow
    exact ofRatio_eq_below hnum hden hn h hlow.1 hlow.2

end ofRatio

/-- A number as the operations build it. -/
def Normal : Binary64 → Prop
  | .finite _ m q => IsNormal m q
  | .infinite _ => True

theorem normal_zero (s : Bool) : (zero s).Normal :=
  ⟨by norm_num, le_rfl, by decide, .inr rfl⟩

/-- A quotient has a significand of at most 53 bits, and of that many above the least exponent. A
54th bit may come from rounding up. -/
theorem significand_bounds {num den : ℕ} (hnum : 0 < num) (hden : 0 < den) {q : ℤ}
    (hq : q = max (leadingBit num den - (precision - 1)) leastExponent) :
    roundDiv (num * power 2 (-q)) (den * power 2 q) .toEven ≤ 2 ^ 53 ∧
      (q ≠ leastExponent →
        2 ^ 52 ≤ roundDiv (num * power 2 (-q)) (den * power 2 q) .toEven) := by
  set m := roundDiv (num * power 2 (-q)) (den * power 2 q) .toEven with hm
  have hpos : 0 < den * power 2 q := Nat.mul_pos hden (power_pos (by decide) q)
  have hpos' : (0 : ℚ) < (den * power 2 q : ℕ) := by exact_mod_cast hpos
  have h2q : (0 : ℚ) < 2 ^ q := by positivity
  obtain ⟨hbelow, habove⟩ := roundDiv_near (num * power 2 (-q)) _ .toEven hpos
  rw [← hm] at hbelow habove
  obtain ⟨hlow, hhigh⟩ := leadingBit_spec hnum hden
  simp only [precision] at hq
  -- the quotient lies between two powers of two, and rounding does not cross them
  constructor
  · have hlt : ((num * power 2 (-q) : ℕ) : ℚ) / (den * power 2 q : ℕ) < 2 ^ 53 := by
      rw [cast_quotient, div_lt_iff₀ h2q, ← zpow_natCast, ← zpow_add₀ (by norm_num)]
      refine hhigh.trans_le (zpow_le_zpow_right₀ (by norm_num) ?_)
      push_cast
      omega
    rw [div_lt_iff₀ hpos'] at hlt
    have hlt' : num * power 2 (-q) < 2 ^ 53 * (den * power 2 q) := by exact_mod_cast hlt
    by_contra hgt
    have := Nat.mul_le_mul_right (den * power 2 q) (by omega : 2 ^ 53 + 1 ≤ m)
    rw [Nat.add_mul] at this
    omega
  · intro hne
    have hle : (2 ^ 52 : ℚ) ≤ ((num * power 2 (-q) : ℕ) : ℚ) / (den * power 2 q : ℕ) := by
      rw [cast_quotient, le_div_iff₀ h2q, ← zpow_natCast, ← zpow_add₀ (by norm_num)]
      refine (zpow_le_zpow_right₀ (by norm_num) ?_).trans hlow
      push_cast
      omega
    rw [le_div_iff₀ hpos'] at hle
    have hle' : 2 ^ 52 * (den * power 2 q) ≤ num * power 2 (-q) := by exact_mod_cast hle
    by_contra hlt
    have := Nat.mul_le_mul_right (den * power 2 q) (by omega : m + 1 ≤ 2 ^ 52)
    rw [Nat.add_mul] at this
    omega

theorem normal_ofRatio (s : Bool) {num den : ℕ} (hden : 0 < den) : (ofRatio s num den).Normal := by
  unfold ofRatio
  split
  · exact normal_zero s
  · rename_i hnum
    dsimp only
    set q := max (leadingBit num den - (precision - 1)) leastExponent with hq
    obtain ⟨hupper, hlower⟩ := significand_bounds (Nat.pos_of_ne_zero hnum) hden hq
    have hleast : leastExponent ≤ q := le_max_right _ _
    rw [leastNormal_eq]
    split
    · dsimp only
      split
      · trivial
      · exact ⟨by norm_num, by omega, by omega, .inl le_rfl⟩
    · rename_i hcarry
      dsimp only
      split
      · trivial
      · exact ⟨by omega, hleast, by omega, (em (q = leastExponent)).symm.imp_left hlower⟩

theorem normal_ofScientific (s : Bool) (digits : ℕ) (e : ℤ) : (ofScientific s digits e).Normal := by
  unfold ofScientific
  dsimp only
  split
  · exact normal_zero s
  · split
    · trivial
    · split
      · exact normal_zero s
      · exact normal_ofRatio s (power_pos (by decide) _)

/-! ## Reading a decimal -/

section ReadsBack

variable {m : ℕ} {q : ℤ} {d : Digits}

theorem least_decimal : (10 : ℚ) ^ (-324 : ℤ) ≤ 2 ^ (-1075 : ℤ) := by
  have h : 2 ^ 1075 ≤ 10 ^ 324 := by decide +kernel
  rw [zpow_neg, zpow_neg, inv_le_inv₀ (by positivity) (by positivity), zpow_ofNat, zpow_ofNat]
  exact_mod_cast h

theorem greatest_decimal : (2 : ℚ) ^ (1024 : ℤ) < 10 ^ (309 : ℤ) := by
  have h : 2 ^ 1024 < 10 ^ 309 := by decide +kernel
  rw [zpow_ofNat, zpow_ofNat]
  exact_mod_cast h

/-- A decimal that reads back is in the range of the finite numbers. -/
theorem value_bounds (hm : 0 < m) (hn : IsNormal m q) (h : readsBack m q d) :
    (10 : ℚ) ^ (-324 : ℤ) ≤ d.value ∧ d.value < 10 ^ (309 : ℤ) := by
  have hq : (0 : ℚ) < 2 ^ q := by positivity
  have hr := (readsBack_iff hm q d).mp h
  have hlow := hr.wide.le
  have hhigh := hr.ge
  have hm1 : (1 : ℚ) ≤ m := by exact_mod_cast hm
  have hm2 : (m : ℚ) + 1 ≤ 2 ^ (53 : ℤ) := by
    rw [zpow_ofNat]
    exact_mod_cast hn.bits
  rw [le_div_iff₀ hq] at hlow
  rw [div_le_iff₀ hq] at hhigh
  have hqlow : (2 : ℚ) ^ (-1074 : ℤ) ≤ 2 ^ q := zpow_le_zpow_right₀ (by norm_num) hn.least
  have hqhigh : (2 : ℚ) ^ q ≤ 2 ^ (971 : ℤ) := zpow_le_zpow_right₀ (by norm_num) hn.greatest
  constructor
  · calc (10 : ℚ) ^ (-324 : ℤ) ≤ 2 ^ (-1 + -1074 : ℤ) := least_decimal
      _ = 1 / 2 * 2 ^ (-1074 : ℤ) := by
          rw [zpow_add₀ (by norm_num : (2 : ℚ) ≠ 0), zpow_neg_one, one_div]
      _ ≤ (m - 1 / 2) * 2 ^ q :=
          mul_le_mul (by linarith only [hm1]) hqlow (by positivity) (by linarith only [hm1])
      _ ≤ d.value := hlow
  · calc d.value ≤ (m + 1 / 2) * 2 ^ q := hhigh
      _ ≤ 2 ^ (53 : ℤ) * 2 ^ (971 : ℤ) :=
          mul_le_mul (le_trans (by linarith only) hm2) hqhigh hq.le (by positivity)
      _ = 2 ^ (1024 : ℤ) := (zpow_add₀ (by norm_num) 53 971).symm
      _ < 10 ^ (309 : ℤ) := greatest_decimal

theorem digits_pos_of_value_pos (h : 0 < d.value) : 0 < d.digits := by
  by_contra hzero
  rw [Digits.value, Nat.eq_zero_of_not_pos hzero, Nat.cast_zero, zero_mul] at h
  exact lt_irrefl 0 h

theorem exponent_lt_of_value_lt (hdigits : 0 < d.digits) {e : ℤ} (h : d.value < 10 ^ e) :
    d.exponent < e := by
  have h1 : (1 : ℚ) ≤ d.digits := by exact_mod_cast hdigits
  refine (zpow_lt_zpow_iff_right₀ (by norm_num : (1 : ℚ) < 10)).mp ?_
  calc (10 : ℚ) ^ d.exponent = 1 * 10 ^ d.exponent := (one_mul _).symm
    _ ≤ d.value := by unfold Digits.value; gcongr
    _ < 10 ^ e := h

/-- A third of the bits bounds the places, as eight is less than ten. -/
theorem digits_lt_places (n : ℕ) : (n : ℚ) < 10 ^ (n.log2 / 3 + 1 : ℤ) := by
  have h8 : n < 8 ^ (n.log2 / 3 + 1) := by
    calc n < 2 ^ (n.log2 + 1) := Nat.lt_log2_self
      _ ≤ 2 ^ (3 * (n.log2 / 3 + 1)) := Nat.pow_le_pow_right (by decide) (by omega)
      _ = 8 ^ (n.log2 / 3 + 1) := by rw [Nat.pow_mul]
  have h10 := h8.trans_le (Nat.pow_le_pow_left (by decide : 8 ≤ 10) _)
  exact_mod_cast h10

theorem lt_exponent_of_le_value {e : ℤ} (h : 10 ^ e ≤ d.value) :
    e < d.exponent + (d.digits.log2 / 3 + 1 : ℤ) := by
  refine (zpow_lt_zpow_iff_right₀ (by norm_num : (1 : ℚ) < 10)).mp ?_
  calc (10 : ℚ) ^ e ≤ d.value := h
    _ < 10 ^ (d.digits.log2 / 3 + 1 : ℤ) * 10 ^ d.exponent := by
        have := digits_lt_places d.digits
        unfold Digits.value
        gcongr
    _ = 10 ^ (d.exponent + (d.digits.log2 / 3 + 1 : ℤ)) := by
        rw [← zpow_add₀ (by norm_num), add_comm]

/-- A decimal that reads back is read as the number. -/
theorem ofScientific_eq (s : Bool) (hm : 0 < m) (hn : IsNormal m q) (h : readsBack m q d) :
    ofScientific s d.digits d.exponent = .finite s m q := by
  obtain ⟨hlow, hhigh⟩ := value_bounds hm hn h
  have hdigits := digits_pos_of_value_pos (hlow.trans_lt' (by positivity))
  -- neither guard against long computations applies to numbers that are finite
  have hupper := exponent_lt_of_value_lt hdigits hhigh
  have hlower := lt_exponent_of_le_value hlow
  unfold ofScientific
  dsimp only
  rw [if_neg hdigits.ne', if_neg (by omega), if_neg (by omega)]
  refine ofRatio_eq (Nat.mul_pos hdigits (power_pos (by decide) _)) (power_pos (by decide) _) hn ?_
  have hvalue : ((d.digits * power 10 d.exponent : ℕ) : ℚ) / power 10 (-d.exponent) = d.value := by
    have hp : (power 10 (-d.exponent) : ℚ) ≠ 0 := by
      exact_mod_cast (power_pos (by decide) _).ne'
    push_cast
    rw [cast_power (by decide) d.exponent, ← mul_assoc, mul_div_cancel_right₀ _ hp]
    rfl
  rw [hvalue]
  exact (readsBack_iff hm q d).mp h

end ReadsBack

end Binary64

end Composables.Decimal
