import Composables.Proofs.Decimal.Notation

/-
  Reading numbers in any notation. What is written reads back (`Notation.readNumber_render`), so
  that no two numbers in normal form are written alike (`Notation.render_injOn`).
-/

namespace Composables.Decimal

open Text

/-! ## Reading -/

/-- The exponent behind a mark, with or without a sign. -/
def readExponent : List Char → ℤ
  | '-' :: ds => -decimalValue ds
  | '+' :: ds => decimalValue ds
  | ds => decimalValue ds

/-- The decimal that a text without a sign says: digits, perhaps a point among them, perhaps a mark
and an exponent. -/
def readDigits (cs : List Char) : Digits :=
  let mantissa := cs.takeWhile (· != 'e')
  let whole := mantissa.takeWhile (· != '.')
  let fraction := (mantissa.dropWhile (· != '.')).drop 1
  let exponent := readExponent ((cs.dropWhile (· != 'e')).drop 1)
  ⟨decimalValue (whole ++ fraction), exponent - fraction.length⟩

/-- The number nearest to what a text without a sign says. -/
def readUnsigned (negative : Bool) : List Char → Binary64
  | 'i' :: _ => .infinite negative
  | cs => .ofScientific negative (readDigits cs).digits (readDigits cs).exponent

/-- The number nearest to what a text says. -/
def readNumber : List Char → Binary64
  | '-' :: cs => readUnsigned true cs
  | cs => readUnsigned false cs

/-! ## Parts of a text -/

theorem readExponent_digits {ds : List Char} (h : ∀ c ∈ ds, c.isDigit) :
    readExponent ds = decimalValue ds := by
  unfold readExponent
  split
  · exact absurd (h '-' List.mem_cons_self) (by decide)
  · exact absurd (h '+' List.mem_cons_self) (by decide)
  · rfl

theorem readExponent_toString (n : ℤ) : readExponent (toString n).toList = n := by
  cases n with
  | ofNat n =>
      show readExponent (toString n).toList = n
      rw [toList_toString, readExponent_digits (all_isDigit_toDigits n), decimalValue_toDigits]
  | negSucc n =>
      show readExponent ("-" ++ toString (n + 1)).toList = _
      rw [String.toList_append, toList_toString]
      show -(decimalValue (Nat.toDigits 10 (n + 1)) : ℤ) = _
      rw [decimalValue_toDigits]
      rfl

theorem toString_int_injective : Function.Injective (toString : ℤ → String) := fun m n h => by
  rw [← readExponent_toString m, h, readExponent_toString]

/-- A point and what stands behind it, if there is one. -/
def pointed : Option (List Char) → List Char
  | some fraction => '.' :: fraction
  | none => []

/-- A mark and the exponent behind it, if there is one. -/
def marked : Option (List Char) → List Char
  | some exponent => 'e' :: exponent
  | none => []

theorem ne_of_isDigit {c d : Char} (hc : c.isDigit) (hd : d.isDigit = false) : c ≠ d := by
  rintro rfl
  exact absurd hc (Bool.eq_false_iff.mp hd)

/-- A text of digits is read part by part. -/
theorem readDigits_eq {whole : List Char} {fraction exponent : Option (List Char)}
    (hwhole : ∀ c ∈ whole, c.isDigit) (hfraction : ∀ c ∈ fraction.getD [], c.isDigit) :
    readDigits (whole ++ pointed fraction ++ marked exponent) =
      ⟨decimalValue (whole ++ fraction.getD []),
        readExponent (exponent.getD []) - (fraction.getD []).length⟩ := by
  have hmantissa : ∀ c ∈ whole ++ pointed fraction, (c != 'e') = true := by
    intro c hc
    rw [bne_iff_ne]
    rcases List.mem_append.mp hc with hc | hc
    · exact ne_of_isDigit (hwhole c hc) rfl
    · cases fraction with
      | none => cases hc
      | some ds =>
          rcases List.mem_cons.mp hc with rfl | hc
          · decide
          · exact ne_of_isDigit (hfraction c hc) rfl
  have hpoint : ∀ c ∈ whole, (c != '.') = true := fun c hc =>
    bne_iff_ne.mpr (ne_of_isDigit (hwhole c hc) rfl)
  have htake : (marked exponent).takeWhile (· != 'e') = [] := by cases exponent <;> rfl
  have hdrop : ((marked exponent).dropWhile (· != 'e')).drop 1 = exponent.getD [] := by
    cases exponent <;> rfl
  unfold readDigits
  dsimp only
  rw [List.takeWhile_append_of_pos hmantissa, List.dropWhile_append_of_pos hmantissa, htake, hdrop,
    List.append_nil, List.takeWhile_append_of_pos hpoint, List.dropWhile_append_of_pos hpoint]
  cases fraction <;> simp [pointed]

/-! ## Layouts -/

/-- Whether a text opens with a digit and says a decimal of the given value. -/
structure Says (cs : List Char) (d : Digits) : Prop where
  opens : ∃ c ∈ cs.head?, c.isDigit
  value : (readDigits cs).value = d.value

variable {style : Notation} {d : Digits}

theorem Says.of_parts {whole : List Char} {fraction exponent : Option (List Char)}
    (hne : whole ≠ []) (hwhole : ∀ c ∈ whole, c.isDigit)
    (hfraction : ∀ c ∈ fraction.getD [], c.isDigit)
    (hvalue : (decimalValue (whole ++ fraction.getD []) : ℚ) *
      10 ^ (readExponent (exponent.getD []) - (fraction.getD []).length) = d.value) :
    Says (whole ++ pointed fraction ++ marked exponent) d := by
  obtain ⟨c, cs, rfl⟩ := List.exists_cons_of_ne_nil hne
  refine ⟨⟨c, rfl, hwhole c List.mem_cons_self⟩, ?_⟩
  rw [readDigits_eq hwhole hfraction, ← hvalue, Digits.value]

section InFull

variable (hrange : style.plainFrom ≤ d.leading ∧ d.leading < style.plainBelow)

include hrange

theorem says_layout_whole (hd : 0 ≤ d.exponent) : Says (style.layout d).toList d := by
  rw [layout_whole hrange hd]
  set ds := Nat.toDigits 10 d.digits ++ List.replicate d.exponent.toNat '0' with hds
  have hwhole : ∀ c ∈ ds, c.isDigit := fun c hc =>
    (List.mem_append.mp hc).elim (all_isDigit_toDigits _ c) (all_isDigit_zeros _ c)
  have hne : ds ≠ [] := List.append_ne_nil_of_left_ne_nil Nat.toDigits_ne_nil _
  have hvalue : (decimalValue ds : ℚ) = d.value := by
    rw [hds, decimalValue_append_zeros, decimalValue_toDigits, Digits.value]
    push_cast
    rw [← zpow_natCast, Int.toNat_of_nonneg hd]
  split
  · -- the zero behind the point counts as one more digit
    have hsays : Says (ds ++ pointed (some (List.replicate 1 '0')) ++ marked none) d := by
      refine .of_parts hne hwhole (all_isDigit_zeros 1) ?_
      rw [Option.getD_some, decimalValue_append_zeros, ← hvalue]
      show _ * (10 : ℚ) ^ ((0 : ℤ) - 1) = _
      push_cast
      ring
    rwa [marked, List.append_nil] at hsays
  · have hsays : Says (ds ++ pointed none ++ marked none) d := by
      refine .of_parts hne hwhole (List.forall_mem_nil _) ?_
      rw [Option.getD_none, List.append_nil, hvalue]
      show _ * (10 : ℚ) ^ ((0 : ℤ) - 0) = _
      rw [sub_zero, zpow_zero, mul_one]
    rwa [marked, List.append_nil] at hsays

theorem says_layout_point (hdigits : 0 < d.digits) (hd : d.exponent < 0) :
    Says (style.layout d).toList d := by
  obtain ⟨whole, fraction, htext, hall, hvalue, hlength, hne, -⟩ := layout_point hrange hdigits hd
  rw [List.forall_mem_append] at hall
  have hsays : Says (whole ++ pointed (some fraction) ++ marked none) d := by
    refine .of_parts hne hall.1 hall.2 ?_
    rw [Option.getD_some, hvalue, hlength]
    show _ * (10 : ℚ) ^ ((0 : ℤ) - -d.exponent) = _
    rw [zero_sub, neg_neg, Digits.value]
  rwa [marked, List.append_nil, pointed, ← htext] at hsays

end InFull

theorem says_layout_marked
    (hrange : ¬ (style.plainFrom ≤ d.leading ∧ d.leading < style.plainBelow)) :
    Says (style.layout d).toList d := by
  obtain ⟨c, cs, sign, hdigits, hsign, htext⟩ := layout_marked hrange
  have hall := all_isDigit_toDigits d.digits
  rw [hdigits, List.forall_mem_cons] at hall
  have hexponent : readExponent (sign ++ (toString d.leading).toList) = d.leading := by
    rcases hsign with rfl | ⟨rfl, hleading⟩
    · exact readExponent_toString d.leading
    · obtain ⟨n, hn⟩ := Int.eq_ofNat_of_zero_le hleading
      rw [hn]
      show (decimalValue (toString n).toList : ℤ) = n
      rw [toList_toString, decimalValue_toDigits]
  obtain ⟨fraction, hcs, hpoint⟩ : ∃ fraction : Option (List Char),
      fraction.getD [] = cs ∧ (if cs = [] then [] else '.' :: cs) = pointed fraction := by
    split
    · rename_i hempty
      exact ⟨none, hempty.symm, rfl⟩
    · exact ⟨some cs, rfl, rfl⟩
  have hsays : Says ([c] ++ pointed fraction ++ marked (some (sign ++ (toString d.leading).toList)))
      d := by
    refine .of_parts (List.cons_ne_nil c []) (by simpa using hall.1) (hcs ▸ hall.2) ?_
    rw [hcs, Option.getD_some, hexponent, List.singleton_append, ← hdigits, decimalValue_toDigits,
      Digits.value, Digits.leading, hdigits, List.length_cons]
    congr 2
    push_cast
    ring
  rwa [htext, hpoint]

/-- Every layout of a decimal says it. -/
theorem says_layout (style : Notation) (hd : 0 < d.digits) : Says (style.layout d).toList d := by
  by_cases hrange : style.plainFrom ≤ d.leading ∧ d.leading < style.plainBelow
  · rcases lt_or_ge d.exponent 0 with hexponent | hexponent
    · exact says_layout_point hrange hd hexponent
    · exact says_layout_whole hrange hexponent
  · exact says_layout_marked hrange

/-! ## Numbers -/

theorem readUnsigned_layout {m : ℕ} {q : ℤ} (s : Bool) (hm : 0 < m) (hn : Binary64.IsNormal m q) :
    readUnsigned s (style.layout (shortest m q style.tie)).toList = .finite s m q := by
  have hreads := readsBack_shortest hm q style.tie
  obtain ⟨⟨c, hhead, hc⟩, hvalue⟩ := says_layout style (leading_bounds hm hn hreads).1
  unfold readUnsigned
  split
  · rename_i htext
    rw [htext, List.head?_cons, Option.mem_some_iff] at hhead
    exact absurd rfl (ne_of_isDigit hc (hhead ▸ rfl))
  · rw [Binary64.ofScientific_eq s hm hn (by rw [readsBack_congr hm hvalue]; exact hreads)]

theorem readNumber_sign {s : Bool} {text : String} (h : text.toList.head? ≠ some '-') :
    readNumber ((if s then "-" else "") ++ text).toList = readUnsigned s text.toList := by
  rw [String.toList_append]
  cases s with
  | true => rfl
  | false =>
      show readNumber text.toList = _
      unfold readNumber
      split
      · rename_i htext
        rw [htext] at h
        exact absurd rfl h
      · rfl

theorem render_finite (style : Notation) (s : Bool) (m : ℕ) (q : ℤ) :
    style.render (.finite s m q) = (if s then "-" else "") ++
      if m = 0 then (if style.pointZero then "0.0" else "0")
      else style.layout (shortest m q style.tie) := rfl

/-- A number in normal form is read back as it was, in every notation. -/
theorem Notation.readNumber_render (style : Notation) {x : Binary64} (hx : x.Normal) :
    readNumber (style.render x).toList = x := by
  cases x with
  | infinite s => exact readNumber_sign (by decide)
  | finite s m q =>
      rw [render_finite]
      rcases Nat.eq_zero_or_pos m with rfl | hm
      · obtain rfl : q = Binary64.leastExponent := hx.normal.resolve_left (by decide)
        rw [if_pos rfl, readNumber_sign (by split <;> decide)]
        split <;> rfl
      · obtain ⟨c, hhead, hc⟩ := (says_layout style
          (leading_bounds hm hx (readsBack_shortest hm q style.tie)).1).opens
        rw [if_neg hm.ne', readNumber_sign, readUnsigned_layout s hm hx]
        rw [hhead]
        exact fun hminus => ne_of_isDigit hc rfl (Option.some.inj hminus)

theorem Notation.render_injOn (style : Notation) : Set.InjOn style.render {x | x.Normal} :=
  fun x hx y hy h => by rw [← style.readNumber_render hx, h, style.readNumber_render hy]

end Composables.Decimal
