import Composables.Decimal.Binary64

/-
  The fewest decimal digits that read back to a given binary number.
  Of all decimals with that many digits the one nearest to the number is taken.
-/

namespace Composables.Decimal

/-- The decimal `digits · 10 ^ exponent`. -/
structure Digits where
  digits : Nat
  exponent : Int
deriving DecidableEq, Repr

/-- Compares `a · 10 ^ i` with `n · 2 ^ j`. -/
def compareScaled (a : Nat) (i : Int) (n : Nat) (j : Int) : Ordering :=
  compare (a * power 10 i * power 2 (-j)) (n * power 2 j * power 10 (-i))

/-- Whether a decimal lies among the reals that round to `m · 2 ^ q`: between the midpoints to the two
neighbours, ends included when `m` is even. Below a power of two the lower neighbour is half as far. -/
def readsBack (m : Nat) (q : Int) (d : Digits) : Bool :=
  let narrow := m == Binary64.leastNormal && Binary64.leastExponent < q
  let low := if narrow then 4 * m - 1 else 4 * m - 2
  let high := 4 * m + 2
  let closed := m % 2 == 0
  let below := compareScaled d.digits d.exponent low (q - 2)
  let above := compareScaled d.digits d.exponent high (q - 2)
  (below == .gt || (closed && below == .eq)) && (above == .lt || (closed && above == .eq))

/-- The least `k` with `m · 2 ^ q < 10 ^ k`, for `m ≠ 0`: an estimate from the leading bit, corrected. -/
def scaleOf (m : Nat) (q : Int) : Int :=
  let guess := Int.fdiv ((m.log2 + q) * 30103) 100000
  let fits (k : Int) : Bool := compareScaled 1 k m q == .gt
  if fits guess then guess else if fits (guess + 1) then guess + 1 else guess + 2

/-- The better of the two neighbours of `m · 2 ^ q` on the grid `10 ^ e`, if one of them reads back. -/
def onGrid? (m : Nat) (q : Int) (tie : Tie) (e : Int) : Option Digits :=
  let num := m * power 2 q * power 10 (-e)
  let den := power 2 (-q) * power 10 e
  let lower : Digits := ⟨num / den, e⟩
  let upper : Digits := ⟨num / den + 1, e⟩
  match readsBack m q lower, readsBack m q upper with
  | false, false => none
  | true, false => some lower
  | false, true => some upper
  | true, true => some ⟨roundDiv num den tie, e⟩

/-- Moves trailing zeros of the digits into the exponent, at most `n` of them. -/
def dropZeros : Nat → Digits → Digits
  | 0, d => d
  | n + 1, d => if d.digits % 10 = 0 then dropZeros n ⟨d.digits / 10, d.exponent + 1⟩ else d

/-- The shortest decimal that reads back to `m · 2 ^ q`, for `m ≠ 0`. Seventeen digits always suffice;
the exact value closes the search all the same. -/
def shortest (m : Nat) (q : Int) (tie : Tie) : Digits :=
  let k := scaleOf m q
  let tries := (List.range 17).map fun (n : Nat) => k - (n + 1)
  let exact : Digits := ⟨m * power 2 q * power 5 (-q), min q 0⟩
  dropZeros 17 ((tries.findSome? (onGrid? m q tie)).getD exact)

/-! ## The grid -/

theorem exponent_of_onGrid?_eq_some {m : Nat} {q : Int} {tie : Tie} {e : Int} {d : Digits}
    (h : onGrid? m q tie e = some d) : d.exponent = e := by
  simp only [onGrid?] at h
  split at h <;> simp_all <;> subst h <;> rfl

end Composables.Decimal
