import Composables.Graphql.StringLiteral
import Mathlib.Tactic.Ring

/-
  Strings in quotes read back. The printer writes a character that it does not keep as it is by its
  number in decimal digits, where hexadecimal digits are read. So a text comes back if all of its
  characters are kept or have numbers of one digit (`decode?_encode_iff`).
-/

namespace Composables.Graphql.StringLiteral

/-- Whether a character is read back from inside quotes. Of those that are written by a number,
which is decimal where hexadecimal digits are read, only those of one digit are. -/
def IsKept (c : Char) : Prop := isPlain c ∨ c = '\r' ∨ c = '\n' ∨ c = '\t' ∨ c.toNat < 10

instance (c : Char) : Decidable (IsKept c) := inferInstanceAs (Decidable (_ ∨ _))

theorem decode?_cons {c : Char} (hc : c ≠ '\\') (cs : List Char) :
    decode? (c :: cs) = (decode? cs).map (c :: ·) := by
  rw [decode?]
  · rintro _ _ _ _ _ rfl
    exact absurd rfl hc
  · rintro _ _ rfl
    exact absurd rfl hc
  · rintro rfl
    exact absurd rfl hc

theorem decode?_escape {c : Char} (hc : c ≠ 'u') (cs : List Char) :
    decode? ('\\' :: c :: cs) = (unescape? c).bind fun e => (decode? cs).map (e :: ·) := by
  rw [decode?]
  · cases unescape? c <;> cases decode? cs <;> rfl
  · rintro _ _ _ _ _ rfl
    exact absurd rfl hc

theorem decode?_code (a b c d : Char) (cs : List Char) :
    decode? ('\\' :: 'u' :: a :: b :: c :: d :: cs) =
      (code? [a, b, c, d]).bind fun n => (ofCode? n).bind fun e => (decode? cs).map (e :: ·) := by
  rw [decode?]
  cases code? [a, b, c, d] with
  | none => rfl
  | some n => cases h : ofCode? n <;> cases decode? cs <;> simp [h]

/-- Numbers of one digit are the same in decimal and hexadecimal digits. -/
theorem code?_paddedDigits : ∀ n < 10,
    paddedDigits (Char.ofNat n).toNat = ['0', '0', '0', n.digitChar] ∧
      code? ['0', '0', '0', n.digitChar] = some n ∧ ofCode? n = some (Char.ofNat n) := by
  decide +kernel

theorem decode?_escapeChar {c : Char} (h : IsKept c) (cs : List Char) :
    decode? (escapeChar c ++ cs) = (decode? cs).map (c :: ·) := by
  unfold escapeChar
  split
  · exact decode?_escape (by decide) cs
  · exact decode?_escape (by decide) cs
  · exact decode?_escape (by decide) cs
  · exact decode?_escape (by decide) cs
  · exact decode?_escape (by decide) cs
  · rename_i hcr hlf htab hquote hescape
    split
    · exact decode?_cons hescape cs
    · rename_i hplain
      have hlt : c.toNat < 10 := by
        rcases h with h | rfl | rfl | rfl | h
        · exact absurd h hplain
        · exact absurd rfl hcr
        · exact absurd rfl hlf
        · exact absurd rfl htab
        · exact h
      obtain ⟨hdigits, hcode, hchar⟩ := code?_paddedDigits c.toNat hlt
      rw [Char.ofNat_toNat] at hdigits hchar
      rw [hdigits]
      refine (decode?_code '0' '0' '0' _ cs).trans ?_
      rw [hcode, Option.bind_some, hchar, Option.bind_some]

/-! ## Characters that are not read back -/

theorem hexDigit?_lt {c : Char} {n : ℕ} (h : Text.hexDigit? c = some n) : n < 16 := by
  have hle : ∀ c d : Char, c ≤ d ↔ c.toNat ≤ d.toNat := fun c d => UInt32.le_iff_toNat_le
  have h0 : '0'.toNat = 48 := rfl
  have h9 : '9'.toNat = 57 := rfl
  have ha : 'a'.toNat = 97 := rfl
  have hf : 'f'.toNat = 102 := rfl
  have hA : 'A'.toNat = 65 := rfl
  have hF : 'F'.toNat = 70 := rfl
  unfold Text.hexDigit? at h
  simp only [hle, Char.isDigit_iff_toNat] at h
  split at h
  · cases h
    omega
  · split at h
    · cases h
      omega
    · split at h
      · cases h
        omega
      · cases h

theorem hexValue?_lt {ds : List Char} {n : ℕ} (h : Text.hexValue? ds = some n) :
    n < 16 ^ ds.length := by
  have hrun : ∀ (ds : List Char) (k n : ℕ),
      ds.foldlM (fun n c => (Text.hexDigit? c).map (16 * n + ·)) k = some n →
        n < 16 ^ ds.length * (k + 1) := by
    intro ds
    induction ds with
    | nil =>
        intro k n h
        cases h
        rw [List.length_nil, Nat.pow_zero]
        omega
    | cons d ds ih =>
        intro k n h
        rw [List.foldlM_cons] at h
        obtain ⟨k', hk, h⟩ := Option.bind_eq_some_iff.mp h
        obtain ⟨v, hv, rfl⟩ := Option.map_eq_some_iff.mp hk
        have hlt := hexDigit?_lt hv
        calc n < 16 ^ ds.length * (16 * k + v + 1) := ih _ _ h
          _ ≤ 16 ^ ds.length * (16 * (k + 1)) := Nat.mul_le_mul_left _ (by omega)
          _ = 16 ^ (d :: ds).length * (k + 1) := by rw [List.length_cons, Nat.pow_succ]; ring
  have := hrun ds 0 n h
  rwa [Nat.zero_add, Nat.mul_one] at this

theorem code?_lt {a b c d : Char} {n : ℕ} (h : code? [a, b, c, d] = some n) : n < 65536 := by
  unfold code? at h
  split at h
  · rename_i heq
    cases heq
    have hlt : n < 16 ^ 3 := hexValue?_lt h
    omega
  · have hlt : n < 16 ^ 4 := hexValue?_lt h
    omega

/-- A decimal number of two digits or of more than 65535 is another one in hexadecimal digits. -/
theorem code?_ne {n : ℕ} (h : 10 ≤ n ∧ n < 32 ∨ 65536 ≤ n) : ∃ a b c d ds,
    paddedDigits n = a :: b :: c :: d :: ds ∧ code? [a, b, c, d] ≠ some n := by
  rcases h with ⟨hlow, hhigh⟩ | hlarge
  · have hsmall : ∀ n < 32, 10 ≤ n →
        paddedDigits n = ['0', '0', (n / 10).digitChar, (n % 10).digitChar] ∧
          code? ['0', '0', (n / 10).digitChar, (n % 10).digitChar] ≠ some n := by
      decide +kernel
    exact ⟨_, _, _, _, _, hsmall n hhigh hlow⟩
  · have hlength : 4 < (Nat.toDigits 10 n).length := by
      by_contra hle
      have := (Nat.length_toDigits_le_iff (by decide) (by decide)).mp (not_lt.mp hle)
      omega
    have hdigits : paddedDigits n = Nat.toDigits 10 n := by
      have htext : (toString n).toList = Nat.toDigits 10 n := Nat.toList_repr
      unfold paddedDigits
      dsimp only
      rw [htext, Nat.sub_eq_zero_of_le hlength.le]
      rfl
    rw [hdigits]
    match hds : Nat.toDigits 10 n, hlength with
    | a :: b :: c :: d :: ds, _ =>
        refine ⟨a, b, c, d, ds, rfl, fun hcode => ?_⟩
        have := code?_lt hcode
        omega

theorem decode?_escapeChar_ne {c : Char} (h : ¬ IsKept c) (cs ds : List Char) :
    decode? (escapeChar c ++ cs) ≠ some (c :: ds) := by
  simp only [IsKept, not_or] at h
  obtain ⟨hplain, hcr, hlf, htab, hdigit⟩ := h
  have hrange : 10 ≤ c.toNat ∧ c.toNat < 32 ∨ 65536 ≤ c.toNat := by
    simp only [isPlain, Bool.and_eq_true, decide_eq_true_eq] at hplain
    omega
  obtain ⟨w, x, y, z, more, hdigits, hcode⟩ := code?_ne hrange
  have hquote : c ≠ '"' := by
    rintro rfl
    exact hplain rfl
  have hescape : c ≠ '\\' := by
    rintro rfl
    exact hplain rfl
  have hwritten : escapeChar c = '\\' :: 'u' :: w :: x :: y :: z :: more := by
    rw [escapeChar, if_neg hplain, hdigits]
    all_goals assumption
  -- the first four digits are read, and they are the code of something else
  intro heq
  rw [hwritten] at heq
  replace heq := (decode?_code w x y z (more ++ cs)).symm.trans heq
  obtain ⟨n, hn, heq⟩ := Option.bind_eq_some_iff.mp heq
  obtain ⟨e, he, heq⟩ := Option.bind_eq_some_iff.mp heq
  obtain ⟨_, _, heq⟩ := Option.map_eq_some_iff.mp heq
  rw [(List.cons.inj heq).1] at he
  unfold ofCode? at he
  split at he
  · rename_i hvalid
    cases he
    rw [Char.ofNat, dif_pos hvalid] at hcode
    exact hcode hn
  · cases he

/-- What is written in quotes reads back if each of its characters does. -/
theorem decode?_encode_iff (cs : List Char) :
    decode? (encode cs) = some cs ↔ ∀ c ∈ cs, IsKept c := by
  induction cs with
  | nil => simp [encode, decode?]
  | cons c cs ih =>
      rw [encode, List.flatMap_cons, ← encode, List.forall_mem_cons]
      by_cases hc : IsKept c
      · rw [decode?_escapeChar hc, ← ih]
        simp [hc]
      · exact iff_of_false (decode?_escapeChar_ne hc _ _) fun h => hc h.1

end Composables.Graphql.StringLiteral
