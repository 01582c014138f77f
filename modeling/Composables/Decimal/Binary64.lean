/-
  Binary floating-point numbers with 53 significant bits, held as exact integers.
  Every operation computes the exact rational and rounds it once, to nearest, ties to even.
-/

namespace Composables.Decimal

/-- Which neighbour an exact tie goes to. -/
inductive Tie where
  | toEven
  | awayFromZero
deriving DecidableEq, Repr

/-- The natural number nearest to `num / den`. -/
def roundDiv (num den : Nat) (tie : Tie) : Nat :=
  let q := num / den
  match compare (2 * (num % den)) den, tie with
  | .lt, _ => q
  | .gt, _ => q + 1
  | .eq, .awayFromZero => q + 1
  | .eq, .toEven => if q % 2 = 0 then q else q + 1

/-- The part of a power with an integer exponent that stands in the numerator: `b ^ e`, or 1 if `e` is negative. -/
def power (b : Nat) (e : Int) : Nat := Nat.pow b e.toNat

/-- `± significand · 2 ^ exponent`, or an infinity. What the operations below build is in normal form:
the significand has 53 bits, or the exponent is the least one. -/
inductive Binary64 where
  | finite (negative : Bool) (significand : Nat) (exponent : Int)
  | infinite (negative : Bool)
deriving DecidableEq, Repr

namespace Binary64

/-- The number of significant bits. -/
def precision : Nat := 53

/-- The least significand with that many bits. -/
def leastNormal : Nat := Nat.pow 2 (precision - 1)

/-- The exponent of the numbers next to zero. -/
def leastExponent : Int := -1074

/-- The exponent of the largest finite numbers. -/
def greatestExponent : Int := 971

def zero (negative : Bool) : Binary64 := .finite negative 0 leastExponent

/-- The exponent of the leading bit of a positive quotient. -/
def leadingBit (num den : Nat) : Int :=
  let b : Int := num.log2 - den.log2
  if num * power 2 (-b) < den * power 2 b then b - 1 else b

/-- The number nearest to `± num / den`. -/
def ofRatio (negative : Bool) (num den : Nat) : Binary64 :=
  if num = 0 then zero negative else
  let q := max (leadingBit num den - (precision - 1)) leastExponent
  let m := roundDiv (num * power 2 (-q)) (den * power 2 q) .toEven
  -- rounding up may carry into a 54th bit
  let (m, q) := if m = 2 * leastNormal then (leastNormal, q + 1) else (m, q)
  if greatestExponent < q then .infinite negative else .finite negative m q

/-- The number nearest to `± num / den · 2 ^ e`. -/
def ofScaledRatio (negative : Bool) (num den : Nat) (e : Int) : Binary64 :=
  ofRatio negative (num * power 2 e) (den * power 2 (-e))

def ofNat (n : Nat) : Binary64 := ofRatio false n 1

/-- The number nearest to `± digits · 10 ^ e`. Exponents far beyond the range are not expanded. -/
def ofScientific (negative : Bool) (digits : Nat) (e : Int) : Binary64 :=
  let places : Int := digits.log2 / 3 + 1
  if digits = 0 then zero negative
  else if 400 < e then .infinite negative
  else if e + places < -400 then zero negative
  else ofRatio negative (digits * power 10 e) (power 10 (-e))

def isZero : Binary64 → Bool
  | .finite _ m _ => m == 0
  | .infinite _ => false

def isInfinite : Binary64 → Bool
  | .finite .. => false
  | .infinite _ => true

def isNegative : Binary64 → Bool
  | .finite negative .. => negative
  | .infinite negative => negative

def withSign (negative : Bool) : Binary64 → Binary64
  | .finite _ m q => .finite negative m q
  | .infinite _ => .infinite negative

/-- Product of finite numbers; an infinite factor stays infinite. -/
def mul : Binary64 → Binary64 → Binary64
  | .finite s m q, .finite t n r => ofScaledRatio (s != t) (m * n) 1 (q + r)
  | x, y => .infinite (x.isNegative != y.isNegative)

/-- Quotient by a finite number other than zero. -/
def div : Binary64 → Binary64 → Binary64
  | .finite s m q, .finite t n r => ofScaledRatio (s != t) m n (q - r)
  | x, y => .infinite (x.isNegative != y.isNegative)

end Binary64

/-! ## Rounding -/

theorem roundDiv_near (num den : Nat) (tie : Tie) (h : 0 < den) :
    2 * (roundDiv num den tie * den) ≤ 2 * num + den ∧
      2 * num ≤ 2 * (roundDiv num den tie * den) + den := by
  have e : den * (num / den) + num % den = num := Nat.div_add_mod num den
  have l : num % den < den := Nat.mod_lt _ h
  simp only [roundDiv]
  generalize num / den = q at *
  generalize num % den = r at *
  have hq : (q + 1) * den = den * q + den := by rw [Nat.add_mul, Nat.mul_comm]; simp
  have hq0 : q * den = den * q := Nat.mul_comm ..
  generalize den * q = p at *
  split
  · rename_i hc; rw [Nat.compare_eq_lt] at hc; omega
  · rename_i hc; rw [Nat.compare_eq_gt] at hc; omega
  · rename_i hc; rw [Nat.compare_eq_eq] at hc; omega
  · rename_i hc; rw [Nat.compare_eq_eq] at hc; split <;> omega

end Composables.Decimal
