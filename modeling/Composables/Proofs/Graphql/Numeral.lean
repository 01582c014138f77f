import Composables.Graphql.Token
import Composables.Graphql.Printer
import Composables.Proofs.Decimal.Notation
import Mathlib.Data.List.DropRight

/-
  Printed numbers read back. An integer that fits is read as it was (`Token.ofNumeral?_int`), and so
  is a float that has a fraction (`Token.ofNumeral?_fraction`). No other float is read as one
  (`Token.ofNumeral?_of_not_hasFraction`): the print of a whole one is that of an integer.
-/

namespace Composables.Graphql

open Decimal (Binary64 IsWhole)
open Text

namespace Numeral

/-- The sign in front of a number. -/
def sign (negative : Bool) : List Char := if negative then ['-'] else []

theorem whole?_eq {negative : Bool} {ds : List Char} (hds : ∀ c ∈ ds, c.isDigit) (hne : ds ≠ [])
    (hhead : ds.length = 1 ∨ ds.head? ≠ some '0') :
    whole? (sign negative ++ ds) = some (negative, ds) := by
  have hcond : (!ds.isEmpty && ds.all Char.isDigit && (ds.length == 1 || ds.head? != some '0')) =
      true := by
    simp only [Bool.and_eq_true, Bool.not_eq_true', Bool.or_eq_true, List.isEmpty_eq_false_iff,
      List.all_eq_true, beq_iff_eq, bne_iff_ne]
    exact ⟨⟨hne, hds⟩, hhead⟩
  unfold whole?
  cases negative with
  | true => exact if_pos hcond
  | false =>
      simp only [sign, Bool.false_eq_true, if_false, List.nil_append]
      split
      · have := hds '-' List.mem_cons_self
        cases this
      · exact if_pos hcond

theorem cutLast_none {p : Char → Bool} {cs : List Char} (h : ∀ c ∈ cs, p c = false) :
    cutLast p cs = (cs, none) := by
  have hall : ∀ c ∈ cs.reverse, (!p c) = true := by
    intro c hc
    rw [h c (List.mem_reverse.mp hc)]
    rfl
  unfold cutLast
  rw [List.span_eq_takeWhile_dropWhile, List.dropWhile_eq_nil_iff.mpr hall]

theorem cutLast_some {p : Char → Bool} {c : Char} (before : List Char) {after : List Char}
    (hc : p c = true) (h : ∀ d ∈ after, p d = false) :
    cutLast p (before ++ c :: after) = (before, some after) := by
  have hall : ∀ d ∈ after.reverse, (!p d) = true := by
    intro d hd
    rw [h d (List.mem_reverse.mp hd)]
    rfl
  have hreverse : (before ++ c :: after).reverse = after.reverse ++ c :: before.reverse := by simp
  unfold cutLast
  rw [hreverse, List.span_eq_takeWhile_dropWhile, List.takeWhile_append_of_pos hall,
    List.dropWhile_append_of_pos hall, List.takeWhile_cons_of_neg (by simp [hc]),
    List.dropWhile_cons_of_neg (by simp [hc])]
  simp

theorem fraction?_eq {ds : List Char} (hds : ∀ c ∈ ds, c.isDigit) (hne : ds ≠ []) :
    fraction? ds = some ds := by
  unfold fraction?
  rw [if_pos]
  simp only [Bool.and_eq_true, Bool.not_eq_true', List.isEmpty_eq_false_iff, List.all_eq_true]
  exact ⟨hne, hds⟩

/-! ## Integers -/

theorem toList_int (n : ℤ) :
    (toString n).toList = sign (decide (n < 0)) ++ Nat.toDigits 10 n.natAbs := by
  cases n with
  | ofNat n => exact Nat.toList_repr
  | negSucc n =>
      show ("-" ++ toString (n + 1)).toList = _
      rw [String.toList_append, Decimal.toList_toString, decide_eq_true (Int.negSucc_lt_zero n)]
      rfl

theorem int?_eq {n : ℤ} (h : -int?.limit ≤ n ∧ n < int?.limit) :
    int? (toString n).toList = some n := by
  have hwhole : whole? (toString n).toList = some (decide (n < 0), Nat.toDigits 10 n.natAbs) := by
    rw [toList_int]
    refine whole?_eq (all_isDigit_toDigits _) Nat.toDigits_ne_nil ?_
    rcases Nat.eq_zero_or_pos n.natAbs with hzero | hpos
    · rw [hzero]
      exact .inl rfl
    · exact .inr (head?_toDigits hpos)
  have hvalue : (if decide (n < 0) then -(decimalValue (Nat.toDigits 10 n.natAbs) : ℤ)
      else decimalValue (Nat.toDigits 10 n.natAbs)) = n := by
    rw [decimalValue_toDigits]
    split
    · rename_i hneg
      have := of_decide_eq_true hneg
      omega
    · rename_i hneg
      have := mt decide_eq_true hneg
      omega
  unfold int?
  rw [hwhole]
  dsimp only [Option.bind_eq_bind, Option.bind_some]
  rw [hvalue, if_pos h]

/-! ## Floats -/

theorem isMark_of_isDigit {c : Char} (h : c.isDigit) : isMark c = false := by
  unfold isMark
  rw [Bool.or_eq_false_iff, beq_eq_false_iff_ne, beq_eq_false_iff_ne]
  constructor
  · rintro rfl
    cases h
  · rintro rfl
    cases h

/-- A number with a point is read as the float nearest to it. -/
theorem float?_eq {negative : Bool} {whole fraction : List Char}
    (hdigits : ∀ c ∈ whole ++ fraction, c.isDigit) (hwhole : whole ≠ []) (hfraction : fraction ≠ [])
    (hhead : whole.length = 1 ∨ whole.head? ≠ some '0') :
    float? (sign negative ++ (whole ++ '.' :: fraction)) =
      some (.ofScientific negative (decimalValue (whole ++ fraction)) (-fraction.length)) := by
  rw [List.forall_mem_append] at hdigits
  have hmark : ∀ c ∈ sign negative ++ (whole ++ '.' :: fraction), isMark c = false := by
    intro c hc
    simp only [List.mem_append, List.mem_cons] at hc
    rcases hc with hc | hc | rfl | hc
    · cases negative
      · cases hc
      · rw [List.mem_singleton.mp hc]
        rfl
    · exact isMark_of_isDigit (hdigits.1 c hc)
    · rfl
    · exact isMark_of_isDigit (hdigits.2 c hc)
  have hpoint : ∀ c ∈ fraction, (c == '.') = false := by
    intro c hc
    rw [beq_eq_false_iff_ne]
    rintro rfl
    have := hdigits.2 '.' hc
    cases this
  unfold float?
  rw [cutLast_none hmark, ← List.append_assoc]
  dsimp only [Option.bind_eq_bind, Option.bind_some]
  rw [cutLast_some _ rfl hpoint]
  dsimp only
  rw [whole?_eq hdigits.1 hwhole hhead, fraction?_eq hdigits.2 hfraction]
  dsimp only [Option.bind_some]
  rw [zero_sub]
  rfl

end Numeral

/-! ## Printed numbers -/

theorem Numeral.isFloat_eq_false {negative : Bool} {ds : List Char} (h : ∀ c ∈ ds, c.isDigit) :
    isFloat (sign negative ++ ds) = false := by
  unfold isFloat
  rw [List.any_eq_false]
  intro c hc
  rcases List.mem_append.mp hc with hc | hc
  · cases negative
    · cases hc
    · rw [List.mem_singleton.mp hc]
      decide
  · rw [isMark_of_isDigit (h c hc), Bool.or_false, beq_iff_eq]
    rintro rfl
    cases h '.' hc

theorem Token.ofNumeral?_int {n : ℤ} (h : -Numeral.int?.limit ≤ n ∧ n < Numeral.int?.limit) :
    ofNumeral? (toString n).toList = some (.int n) := by
  unfold ofNumeral?
  rw [Numeral.int?_eq h, Numeral.toList_int,
    Numeral.isFloat_eq_false (all_isDigit_toDigits n.natAbs)]
  rfl

theorem toList_render (negative : Bool) (m : ℕ) (q : ℤ) :
    (printedFloat.render (.finite negative m q)).toList = Numeral.sign negative ++
      if m = 0 then ['0'] else
        (printedFloat.layout (Decimal.shortest m q .awayFromZero)).toList := by
  unfold Decimal.Notation.render
  cases negative <;> simp [Binary64.isNegative, Numeral.sign, printedFloat, apply_ite String.toList]

/-- Whole numbers are printed as integers are. -/
theorem toList_render_whole (negative : Bool) {m : ℕ} {q : ℤ} (hn : Binary64.IsNormal m q)
    (h : IsWhole m q) : ∃ ds : List Char, (∀ c ∈ ds, c.isDigit) ∧ ds ≠ [] ∧
      (printedFloat.render (.finite negative m q)).toList = Numeral.sign negative ++ ds := by
  rw [toList_render]
  split
  · exact ⟨['0'], fun c hc => by rw [List.mem_singleton.mp hc]; rfl, by simp, rfl⟩
  · rename_i hm
    have hm := Nat.pos_of_ne_zero hm
    obtain ⟨_, hlow, hhigh⟩ :=
      Decimal.leading_bounds hm hn (Decimal.readsBack_shortest hm q .awayFromZero)
    have hpoint : printedFloat.pointZero = false := rfl
    have htext : (printedFloat.layout (Decimal.shortest m q .awayFromZero)).toList = _ :=
      Decimal.layout_whole ⟨hlow, hhigh⟩ (Decimal.exponent_shortest hm hn h .awayFromZero)
    rw [hpoint, if_neg Bool.false_ne_true, List.append_nil] at htext
    refine ⟨_, ?_, ?_, congrArg _ htext⟩
    · intro c hc
      exact (List.mem_append.mp hc).elim (all_isDigit_toDigits _ c) (all_isDigit_zeros _ c)
    · simp [Nat.toDigits_ne_nil]

/-- Numbers with a fraction are printed with a point. -/
theorem toList_render_fraction (negative : Bool) {m : ℕ} {q : ℤ} (hn : Binary64.IsNormal m q)
    (h : ¬ IsWhole m q) :
    ∃ whole fraction : List Char, (∀ c ∈ whole ++ fraction, c.isDigit) ∧ whole ≠ [] ∧
      (printedFloat.render (.finite negative m q)).toList =
        Numeral.sign negative ++ (whole ++ '.' :: fraction) ∧
      Numeral.float? (Numeral.sign negative ++ (whole ++ '.' :: fraction)) =
        some (.finite negative m q) := by
  have hm : 0 < m := by
    by_contra hzero
    rw [Nat.eq_zero_of_not_pos hzero] at h
    exact h (Nat.zero_mod _)
  have hreads := Decimal.readsBack_shortest hm q .awayFromZero
  obtain ⟨hd, hlow, hhigh⟩ := Decimal.leading_bounds hm hn hreads
  have hexponent : (Decimal.shortest m q .awayFromZero).exponent < 0 := by
    by_contra hge
    exact h (Decimal.isWhole_of_readsBack hm hreads (not_lt.mp hge))
  have hrange : printedFloat.plainFrom ≤ (Decimal.shortest m q .awayFromZero).leading ∧
      (Decimal.shortest m q .awayFromZero).leading < printedFloat.plainBelow := ⟨hlow, hhigh⟩
  obtain ⟨whole, fraction, htext, hdigits, hvalue, hlength, hwhole, hhead⟩ :=
    Decimal.layout_point hrange hd hexponent
  have hfraction : fraction ≠ [] := by
    rintro rfl
    rw [List.length_nil] at hlength
    omega
  refine ⟨whole, fraction, hdigits, hwhole, ?_, ?_⟩
  · rw [toList_render, if_neg hm.ne', htext]
  · rw [Numeral.float?_eq hdigits hwhole hfraction hhead, hvalue, hlength, neg_neg,
      Binary64.ofScientific_eq negative hm hn hreads]

/-- A number with a fraction is read back from its print. -/
theorem Token.ofNumeral?_fraction {x : Binary64} (hn : x.Normal) (h : x.HasFraction) :
    ofNumeral? (printedFloat.render x).toList = some (.float x) := by
  cases x with
  | infinite negative => cases h
  | finite negative m q =>
      obtain ⟨whole, fraction, _, _, htext, hfloat⟩ := toList_render_fraction negative hn h
      have hpoint : Numeral.isFloat (Numeral.sign negative ++ (whole ++ '.' :: fraction)) = true :=
        List.any_eq_true.mpr ⟨'.', by simp, rfl⟩
      unfold ofNumeral?
      rw [htext, hpoint, if_pos rfl, hfloat]
      rfl

/-- No other number is read as a float from its print. -/
theorem Token.ofNumeral?_of_not_hasFraction {x y : Binary64} (hn : x.Normal) (h : ¬ x.HasFraction) :
    ofNumeral? (printedFloat.render x).toList ≠ some (.float y) := by
  have hint : ∀ cs, Numeral.isFloat cs = false → ofNumeral? cs ≠ some (.float y) := by
    intro cs hcs
    unfold ofNumeral?
    rw [hcs, if_neg (by decide)]
    cases Numeral.int? cs <;> simp
  cases x with
  | infinite negative => cases negative <;> exact hint _ (by decide +kernel)
  | finite negative m q =>
      obtain ⟨ds, hds, _, htext⟩ := toList_render_whole negative hn (not_not.mp h)
      rw [htext]
      exact hint _ (Numeral.isFloat_eq_false hds)

end Composables.Graphql
