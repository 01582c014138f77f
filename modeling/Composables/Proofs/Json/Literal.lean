import Composables.Json.Draft
import Composables.Json.Printer
import Composables.Proofs.Decimal.Notation

/-
  Strings and integers in JSON text. What is quoted is read back (`string?_escape`). An integer is
  read as far as it is written, if what stands behind it ends a value (`read?_toString`), and is
  itself again if it fits 64 bits (`value?_ofInt`).
-/

namespace Composables.Json

variable {rest : List Char}

/-! ## Strings -/

namespace Draft

theorem hexValue?_control {n : ℕ} (hn : n < 32) :
    Text.hexValue? ['0', '0', hexDigit (n / 16), hexDigit (n % 16)] = some n := by
  have hall : ∀ n < 32,
      Text.hexValue? ['0', '0', hexDigit (n / 16), hexDigit (n % 16)] = some n := by
    decide
  exact hall n hn

theorem pieces?_plain {c : Char} (hquote : c ≠ '"') (hescape : c ≠ '\\') (hcode : 32 ≤ c.toNat)
    (cs : List Char) :
    pieces? (c :: cs) = (pieces? cs).map fun r => (.char c :: r.1, r.2) := by
  have hplain : (decide (c.toNat < 0x20) || c == '\\') = false := by simp [hescape, hcode]
  rw [pieces?]
  · rw [hplain]
    cases pieces? cs <;> rfl
  · exact hquote
  · rintro _ _ _ _ _ rfl
    exact absurd rfl hescape
  · rintro _ _ rfl
    exact absurd rfl hescape

theorem pieces?_escaped {c e : Char} (he : unescape? c = some e) (cs : List Char) :
    pieces? ('\\' :: c :: cs) = (pieces? cs).map fun r => (.char e :: r.1, r.2) := by
  rw [pieces?]
  · rw [he]
    cases pieces? cs <;> rfl
  · rintro _ _ _ _ _ rfl
    cases he

/-- A sign is read from what is written for it. -/
theorem pieces?_escapeChar (c : Char) (cs : List Char) :
    pieces? (escapeChar c ++ cs) = (pieces? cs).map fun r => (.char c :: r.1, r.2) := by
  unfold escapeChar
  split
  · exact pieces?_escaped rfl cs
  · exact pieces?_escaped rfl cs
  · exact pieces?_escaped rfl cs
  · exact pieces?_escaped rfl cs
  · exact pieces?_escaped rfl cs
  · exact pieces?_escaped rfl cs
  · exact pieces?_escaped rfl cs
  · rename_i hquote hescape _ _ _ _ _
    split
    · rename_i hcode
      have hunit : Piece.ofUnit c.toNat = .char c := by
        rw [Piece.ofUnit, isSurrogate, Char.ofNat_toNat, if_neg]
        simp
        omega
      show pieces? ('\\' :: 'u' :: '0' :: '0' :: _ :: _ :: cs) = _
      rw [pieces?, hexValue?_control hcode]
      cases pieces? cs with
      | none => rfl
      | some r => simp [hunit]
    · rename_i hcode
      exact pieces?_plain hquote hescape (Nat.le_of_not_lt hcode) cs

theorem pieces?_escape (cs : List Char) :
    pieces? (cs.flatMap escapeChar ++ '"' :: rest) = some (cs.map .char, rest) := by
  induction cs with
  | nil => rfl
  | cons c cs ih => rw [List.flatMap_cons, List.append_assoc, pieces?_escapeChar, ih]; rfl

theorem assemble?_chars (cs : List Char) : assemble? (cs.map .char) = some cs := by
  induction cs with
  | nil => rfl
  | cons c cs ih => rw [List.map_cons, assemble?, ih]; rfl

/-- What is quoted is read back. -/
theorem string?_escape (s : String) :
    string? (s.toList.flatMap escapeChar ++ '"' :: rest) = some (some s, rest) := by
  rw [string?, pieces?_escape, Option.map_some, assemble?_chars, Option.map_some,
    String.ofList_toList]

end Draft

theorem toList_quote (s : String) :
    (quote s).toList = '"' :: (s.toList.flatMap escapeChar ++ ['"']) := by
  simp [quote]

/-! ## Integers -/

/-- Nothing stands behind, or what may stand behind a value. -/
def Stops (rest : List Char) : Prop := ∀ c ∈ rest.head?, c = ',' ∨ c = ']' ∨ c = '\x7d'

theorem Stops.cases (h : Stops rest) :
    rest = [] ∨ ∃ c cs, rest = c :: cs ∧ (c = ',' ∨ c = ']' ∨ c = '\x7d') := by
  cases rest with
  | nil => exact .inl rfl
  | cons c cs => exact .inr ⟨c, cs, rfl, h c rfl⟩

namespace Numeral

open Text (decimalValue digitValue)

/-- An integer as it is written. -/
def ofInt (n : ℤ) : Numeral := ⟨n < 0, Nat.toDigits 10 n.natAbs, [], none⟩

theorem toList_toString (n : ℤ) :
    (toString n).toList = (if n < 0 then ['-'] else []) ++ Nat.toDigits 10 n.natAbs := by
  cases n with
  | ofNat n =>
      show (toString n).toList = _
      rw [Decimal.toList_toString, if_neg (by simp)]
      rfl
  | negSucc n =>
      show ("-" ++ toString (n + 1)).toList = _
      rw [String.toList_append, Decimal.toList_toString, if_pos (Int.negSucc_lt_zero n)]
      rfl

theorem read?_stops (h : Stops rest) :
    rest.takeWhile Char.isDigit = [] ∧ rest.dropWhile Char.isDigit = rest ∧
      fraction? rest = some ([], rest) ∧ exponent? rest = some (none, rest) := by
  rcases h.cases with rfl | ⟨c, cs, rfl, rfl | rfl | rfl⟩
  all_goals exact ⟨rfl, rfl, rfl, rfl⟩

/-- Digits without a needless zero are opened by no sign. -/
theorem toDigits_opens (n : ℕ) :
    (!(Nat.toDigits 10 n).isEmpty &&
      ((Nat.toDigits 10 n).length == 1 || (Nat.toDigits 10 n).head? != some '0')) = true := by
  have hne : (Nat.toDigits 10 n).isEmpty = false := by simp [Nat.toDigits_ne_nil]
  rw [hne]
  rcases Nat.eq_zero_or_pos n with rfl | hn
  · rfl
  · simp [Text.head?_toDigits hn]

/-- The number at the front of a text whose sign is read. -/
def readUnsigned? (negative : Bool) (cs : List Char) : Option (Numeral × List Char) := do
  let whole := cs.takeWhile Char.isDigit
  guard (!whole.isEmpty && (whole.length == 1 || whole.head? != some '0'))
  let (fraction, cs) ← fraction? (cs.dropWhile Char.isDigit)
  let (exponent, cs) ← exponent? cs
  return ({ negative, whole, fraction, exponent }, cs)

theorem read?_minus (cs : List Char) : read? ('-' :: cs) = readUnsigned? true cs := rfl

theorem read?_digit {c : Char} (hc : c.isDigit) (cs : List Char) :
    read? (c :: cs) = readUnsigned? false (c :: cs) := by
  unfold read?
  split
  rename_i heq
  split at heq
  · rename_i hminus
    obtain rfl := (List.cons.inj hminus).1
    cases hc
  · obtain ⟨rfl, rfl⟩ := Prod.mk.inj heq
    rfl

/-- An integer is read as far as it is written. -/
theorem read?_toString (n : ℤ) (h : Stops rest) :
    read? ((toString n).toList ++ rest) = some (ofInt n, rest) := by
  obtain ⟨htake, hdrop, hfraction, hexponent⟩ := read?_stops h
  have hdigits := Text.all_isDigit_toDigits n.natAbs
  have hunsigned (negative : Bool) : readUnsigned? negative (Nat.toDigits 10 n.natAbs ++ rest) =
      some (⟨negative, Nat.toDigits 10 n.natAbs, [], none⟩, rest) := by
    unfold readUnsigned?
    rw [List.takeWhile_append_of_pos hdigits, List.dropWhile_append_of_pos hdigits, htake, hdrop,
      List.append_nil, hfraction]
    simp [toDigits_opens, hexponent]
  rw [toList_toString]
  by_cases hneg : n < 0
  · rw [if_pos hneg, List.append_assoc, List.singleton_append, read?_minus, hunsigned, ofInt,
      decide_eq_true hneg]
  · rw [if_neg hneg, List.nil_append, ofInt, decide_eq_false hneg, ← hunsigned]
    obtain ⟨d, ds, hds⟩ : ∃ d ds, Nat.toDigits 10 n.natAbs = d :: ds :=
      List.exists_cons_of_ne_nil Nat.toDigits_ne_nil
    rw [hds, List.cons_append]
    exact read?_digit (hdigits d (hds ▸ List.mem_cons_self)) _

theorem fill_fst_le {n : ℕ} (hn : n ≤ greatest) (ds : List Char) : (fill n ds).1 ≤ greatest := by
  induction ds generalizing n with
  | nil => exact hn
  | cons c ds ih =>
      unfold fill
      split
      · exact hn
      · rename_i hfits
        exact ih (Nat.le_of_not_lt hfits)

/-- Digits of a number of 64 bits are taken in whole. -/
theorem fill_eq {n : ℕ} {ds : List Char}
    (h : ds.foldl (fun n c => 10 * n + digitValue c) n ≤ greatest) :
    fill n ds = (ds.foldl (fun n c => 10 * n + digitValue c) n, []) := by
  induction ds generalizing n with
  | nil => rfl
  | cons c ds ih =>
      have hle : ∀ (ds : List Char) (m : ℕ), m ≤ ds.foldl (fun n c => 10 * n + digitValue c) m := by
        intro ds
        induction ds with
        | nil => exact fun m => le_rfl
        | cons c ds ih => exact fun m => (by omega : m ≤ 10 * m + digitValue c).trans (ih _)
      rw [List.foldl_cons] at h ⊢
      rw [fill, if_neg (Nat.not_lt.mpr ((hle ds _).trans h)), ih h]

/-- Whether an integer fits 64 bits, with or without a sign. -/
def Fits (n : ℤ) : Prop := -(2 ^ 63) ≤ n ∧ n ≤ greatest

theorem value?_ofInt {n : ℤ} (h : Fits n) : (ofInt n).value? = some (.int n) := by
  have hfill : fill 0 (Nat.toDigits 10 n.natAbs) = (n.natAbs, []) := by
    have hvalue :
        (Nat.toDigits 10 n.natAbs).foldl (fun n c => 10 * n + digitValue c) 0 = n.natAbs :=
      Text.decimalValue_toDigits n.natAbs
    rw [fill_eq, hvalue]
    rw [hvalue]
    obtain ⟨hlow, hhigh⟩ := h
    have hgreatest : (greatest : ℤ) = 2 ^ 64 - 1 := by decide
    omega
  obtain ⟨hlow, -⟩ := h
  unfold value? ofInt
  simp only [hfill, fill, List.isEmpty_nil, Bool.and_self, ↓reduceIte]
  by_cases hneg : n < 0
  · have hfits : n.natAbs ≠ 0 ∧ n.natAbs ≤ Nat.pow 2 63 := by
      refine ⟨by omega, ?_⟩
      have hpow : ((Nat.pow 2 63 : ℕ) : ℤ) = 2 ^ 63 := by decide
      omega
    rw [if_neg (by simp [hneg]), if_pos hfits]
    congr 2
    omega
  · rw [if_pos (by simp [hneg])]
    congr 2
    omega

/-- A number that is read is a float, or an integer that fits 64 bits. -/
theorem value?_cases {m : Numeral} {v : Json} (h : m.value? = some v) :
    (∃ n, v = .int n ∧ Fits n) ∨ ∃ x, v = .float x := by
  have hfloat {o : Option Decimal.Binary64} {f : Decimal.Binary64 → Decimal.Binary64}
      (h : o.map (fun x => Json.float (f x)) = some v) : ∃ x, v = .float x := by
    obtain ⟨x, _, hx⟩ := Option.map_eq_some_iff.mp h
    exact ⟨f x, hx.symm⟩
  have hhead : (fill 0 m.whole).1 ≤ greatest := fill_fst_le (Nat.zero_le _) m.whole
  unfold value? at h
  dsimp only at h
  split at h
  · split at h
    · split at h
      · cases h
      · exact .inr ⟨_, (Option.some.inj h).symm⟩
    · exact .inr (hfloat h)
  · split at h
    · split at h
      · exact .inl ⟨_, (Option.some.inj h).symm, by omega, by exact_mod_cast hhead⟩
      · split at h
        · rename_i hfits
          have hpow : ((Nat.pow 2 63 : ℕ) : ℤ) = 2 ^ 63 := by decide
          exact .inl ⟨_, (Option.some.inj h).symm, by omega, by omega⟩
        · exact .inr (hfloat h)
    · exact .inr (hfloat h)

end Numeral

end Composables.Json
