import Composables.Decimal.Notation
import Composables.Text.Digits
import Composables.Proofs.Decimal.Shortest

/-
  How decimals are written: the digits of a number without a fraction (`layout_whole`), and a point
  among or in front of the digits of one that has a fraction (`layout_point`).
-/

namespace Composables

/-! ## Digits -/

namespace Text

theorem decimalValue_eq (ds : List Char) : decimalValue ds = Nat.ofDigitChars 10 ds 0 :=
  Nat.ofDigitChars_eq_foldl.symm

theorem decimalValue_toDigits (n : ℕ) : decimalValue (Nat.toDigits 10 n) = n := by
  rw [decimalValue_eq, Nat.ofDigitChars_ten_toDigits]

theorem decimalValue_zeros (n : ℕ) (ds : List Char) :
    decimalValue (List.replicate n '0' ++ ds) = decimalValue ds := by
  rw [decimalValue_eq, Nat.ofDigitChars_append, Nat.ofDigitChars_replicate_zero, Nat.mul_zero,
    ← decimalValue_eq]

theorem decimalValue_append_zeros (ds : List Char) (n : ℕ) :
    decimalValue (ds ++ List.replicate n '0') = decimalValue ds * 10 ^ n := by
  rw [decimalValue_eq, Nat.ofDigitChars_append, Nat.ofDigitChars_replicate_zero, ← decimalValue_eq,
    mul_comm]

theorem all_isDigit_toDigits (n : ℕ) : ∀ c ∈ Nat.toDigits 10 n, c.isDigit :=
  fun _ hc => Nat.isDigit_of_mem_toDigits (by decide) (by decide) hc

theorem all_isDigit_zeros (n : ℕ) : ∀ c ∈ List.replicate n '0', c.isDigit := by
  intro c hc
  rw [(List.mem_replicate.mp hc).2]
  rfl

/-- Only zero is written with a zero in front. -/
theorem head?_toDigits {n : ℕ} (hn : 0 < n) : (Nat.toDigits 10 n).head? ≠ some '0' := by
  induction n using Nat.strong_induction_on with
  | _ n ih =>
      rw [Nat.toDigits_eq_if (by decide)]
      split
      · rename_i hlt
        interval_cases n <;> decide
      · rename_i hge
        rw [List.head?_append_of_ne_nil _ Nat.toDigits_ne_nil]
        exact ih (n / 10) (by omega) (by omega)

end Text

namespace Decimal

open Text

variable {style : Notation} {d : Digits}

theorem toList_toString (n : ℕ) : (toString n).toList = Nat.toDigits 10 n := by
  rw [Nat.toString_eq_repr, Nat.toList_repr]

theorem length_toString (n : ℕ) : (toString n).length = (Nat.toDigits 10 n).length := by
  rw [← String.length_toList, toList_toString]

/-- The exponent of the leading digit. -/
def Digits.leading (d : Digits) : ℤ := d.exponent + (Nat.toDigits 10 d.digits).length - 1

theorem value_leading (hd : 0 < d.digits) :
    (10 : ℚ) ^ d.leading ≤ d.value ∧ d.value < 10 ^ (d.leading + 1) := by
  have hpos : 0 < (Nat.toDigits 10 d.digits).length := Nat.length_toDigits_pos
  obtain ⟨n, hn⟩ := Nat.exists_eq_succ_of_ne_zero hpos.ne'
  have hhigh : d.digits < 10 ^ (n + 1) :=
    (Nat.length_toDigits_le_iff (by decide) (by omega)).mp hn.le
  have hlow : 10 ^ n ≤ d.digits := by
    rcases Nat.eq_zero_or_pos n with rfl | hn'
    · exact hd
    · by_contra hlt
      have := (Nat.length_toDigits_le_iff (by decide) hn').mpr (not_le.mp hlt)
      omega
  have hlow' : (10 : ℚ) ^ n ≤ d.digits := by exact_mod_cast hlow
  have hhigh' : (d.digits : ℚ) < 10 ^ (n + 1) := by exact_mod_cast hhigh
  have hleading : d.leading = n + d.exponent := by
    rw [Digits.leading, hn]
    push_cast
    ring
  rw [hleading, Digits.value, add_right_comm, zpow_add₀ (by norm_num), zpow_add₀ (by norm_num)]
  exact ⟨by gcongr; exact_mod_cast hlow', by gcongr; exact_mod_cast hhigh'⟩

theorem toList_zeros (n : ℕ) : (zeros n).toList = List.replicate n '0' := String.toList_ofList

/-- Without a fraction a number is written by its digits and zeros; in some notations a point and a
zero follow. -/
theorem layout_whole (hrange : style.plainFrom ≤ d.leading ∧ d.leading < style.plainBelow)
    (hd : 0 ≤ d.exponent) :
    (style.layout d).toList =
      Nat.toDigits 10 d.digits ++ List.replicate d.exponent.toNat '0' ++
        if style.pointZero then ['.', '0'] else [] := by
  unfold Notation.layout
  dsimp only
  rw [length_toString, ← Digits.leading, if_pos hrange, if_pos hd, String.toList_append,
    String.toList_append, toList_toString, toList_zeros]
  cases style.pointZero <;> rfl

/-- A number with a fraction is written with a point, between a whole number and at least one
digit. -/
theorem layout_point (hrange : style.plainFrom ≤ d.leading ∧ d.leading < style.plainBelow)
    (hdigits : 0 < d.digits) (hd : d.exponent < 0) :
    ∃ whole fraction : List Char, (style.layout d).toList = whole ++ '.' :: fraction ∧
      (∀ c ∈ whole ++ fraction, c.isDigit) ∧ decimalValue (whole ++ fraction) = d.digits ∧
      (fraction.length : ℤ) = -d.exponent ∧ whole ≠ [] ∧
      (whole.length = 1 ∨ whole.head? ≠ some '0') := by
  have hall := all_isDigit_toDigits d.digits
  have hvalue := decimalValue_toDigits d.digits
  have hhead := head?_toDigits hdigits
  have hleading : d.leading = d.exponent + (Nat.toDigits 10 d.digits).length - 1 := rfl
  unfold Notation.layout
  dsimp only
  rw [length_toString, ← Digits.leading, if_pos hrange, if_neg (by omega)]
  split
  · rename_i hle
    -- the point stands among the digits
    obtain ⟨w, hw⟩ : ∃ w, d.leading.toNat + 1 = w + 1 := ⟨_, rfl⟩
    set ds := Nat.toDigits 10 d.digits
    refine ⟨ds.take (w + 1), ds.drop (w + 1), ?_, ?_, ?_, ?_, ?_, .inr ?_⟩
    · simp [hw, ds]
    · rwa [List.take_append_drop]
    · rwa [List.take_append_drop]
    · rw [List.length_drop]
      omega
    · exact List.ne_nil_of_length_pos (by rw [List.length_take]; omega)
    · rwa [List.head?_take, if_neg (by omega)]
  · rename_i hlt
    -- the digits stand behind the point
    refine ⟨['0'], List.replicate (-d.leading - 1).toNat '0' ++ Nat.toDigits 10 d.digits,
      ?_, ?_, ?_, ?_, by simp, .inl rfl⟩
    · simp [toList_zeros]
    · intro c hc
      rcases List.mem_append.mp hc with hc | hc
      · rw [List.mem_singleton.mp hc]
        rfl
      · exact (List.mem_append.mp hc).elim (all_isDigit_zeros _ c) (hall c)
    · show decimalValue (List.replicate (_ + 1) '0' ++ _) = _
      rw [decimalValue_zeros, hvalue]
    · rw [List.length_append, List.length_replicate]
      omega

/-- A number that is not written in full has a point behind its first digit, unless that is the only
one, and the exponent of that digit behind a mark. -/
theorem layout_marked (hrange : ¬ (style.plainFrom ≤ d.leading ∧ d.leading < style.plainBelow)) :
    ∃ c cs sign, Nat.toDigits 10 d.digits = c :: cs ∧
      (sign = [] ∨ sign = ['+'] ∧ 0 ≤ d.leading) ∧
      (style.layout d).toList =
        c :: (if cs = [] then [] else '.' :: cs) ++
          'e' :: (sign ++ (toString d.leading).toList) := by
  obtain ⟨c, cs, hcs⟩ : ∃ c cs, Nat.toDigits 10 d.digits = c :: cs :=
    List.exists_cons_of_ne_nil Nat.toDigits_ne_nil
  refine ⟨c, cs, if style.plusSign && decide (0 ≤ d.leading) then ['+'] else [], hcs, ?_, ?_⟩
  · split
    · rename_i hplus
      rw [Bool.and_eq_true, decide_eq_true_iff] at hplus
      exact .inr ⟨rfl, hplus.2⟩
    · exact .inl rfl
  · unfold Notation.layout
    dsimp only
    rw [length_toString, ← Digits.leading, if_neg hrange]
    simp only [String.toList_append, toList_toString, String.toList_ofList, hcs]
    cases cs <;> simp [apply_ite String.toList]

/-- The decimals that numbers are written by have leading digits in the range that is written in
full. -/
theorem leading_bounds {m : ℕ} {q : ℤ} (hm : 0 < m) (hn : Binary64.IsNormal m q)
    (h : readsBack m q d) : 0 < d.digits ∧ -324 ≤ d.leading ∧ d.leading < 309 := by
  obtain ⟨hlow, hhigh⟩ := Binary64.value_bounds hm hn h
  have hd : 0 < d.digits := by
    by_contra hzero
    rw [Digits.value, Nat.eq_zero_of_not_pos hzero, Nat.cast_zero, zero_mul] at hlow
    exact absurd hlow (not_le.mpr (by positivity))
  obtain ⟨hlow', hhigh'⟩ := value_leading hd
  have h1 := (zpow_lt_zpow_iff_right₀ (by norm_num)).mp (hlow.trans_lt hhigh')
  have h2 := (zpow_lt_zpow_iff_right₀ (by norm_num)).mp (hlow'.trans_lt hhigh)
  exact ⟨hd, by omega, h2⟩

end Decimal

end Composables
