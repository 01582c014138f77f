import Composables.Json.Basic
import Composables.Text.Digits

/-
  Numbers in JSON text: their grammar, and the value they stand for.
  An integer that fits 64 bits is exact. Any other number is the part of its digits that fits 64 bits,
  scaled by a power of ten, where each step rounds to the nearest binary number.
-/

namespace Composables.Json

open Decimal (Binary64)
open Text (digitValue decimalValue)

/-- A number as it is written. -/
structure Numeral where
  negative : Bool
  whole : List Char
  /-- The digits after the point, none if there is no point. -/
  fraction : List Char
  exponent : Option Int
deriving DecidableEq, Repr

namespace Numeral

/-- The fraction at the front of the text; a point needs a digit after it. -/
def fraction? : List Char → Option (List Char × List Char)
  | '.' :: cs =>
    let ds := cs.takeWhile Char.isDigit
    if ds.isEmpty then none else some (ds, cs.dropWhile Char.isDigit)
  | cs => some ([], cs)

/-- The exponent at the front of the text; its mark needs a digit after it. -/
def exponent? : List Char → Option (Option Int × List Char)
  | 'e' :: cs => signed cs
  | 'E' :: cs => signed cs
  | cs => some (none, cs)
where
  signed : List Char → Option (Option Int × List Char)
    | '+' :: cs => unsigned 1 cs
    | '-' :: cs => unsigned (-1) cs
    | cs => unsigned 1 cs
  unsigned (sign : Int) (cs : List Char) : Option (Option Int × List Char) :=
    let ds := cs.takeWhile Char.isDigit
    if ds.isEmpty then none else some (some (sign * decimalValue ds), cs.dropWhile Char.isDigit)

/-- The number at the front of the text. A zero in front of another digit is refused. -/
def read? (cs : List Char) : Option (Numeral × List Char) := do
  let (negative, cs) := match cs with
    | '-' :: cs => (true, cs)
    | cs => (false, cs)
  let whole := cs.takeWhile Char.isDigit
  guard (!whole.isEmpty && (whole.length == 1 || whole.head? != some '0'))
  let (fraction, cs) ← fraction? (cs.dropWhile Char.isDigit)
  let (exponent, cs) ← exponent? cs
  return ({ negative, whole, fraction, exponent }, cs)

/-- The greatest natural number of 64 bits. -/
def greatest : Nat := Nat.pow 2 64 - 1

/-- Appends digits to a number while it fits 64 bits; the digits left over come second. -/
def fill (n : Nat) : List Char → Nat × List Char
  | [] => (n, [])
  | c :: cs => if greatest < 10 * n + digitValue c then (n, c :: cs) else fill (10 * n + digitValue c) cs

/-- The greatest magnitude of a written exponent that is not taken for infinite. -/
def greatestExponent : Nat := Nat.pow 2 31 - 1

/-- `n · 10 ^ e` by products and quotients of binary numbers; `none` on overflow. Below `10 ^ -308`
the scaling goes in steps, of which the third is down to zero. -/
def scaled? (n : Nat) (e : Int) : Option Binary64 :=
  let power (k : Nat) : Binary64 := .ofScientific false 1 k
  if n = 0 then some (.zero false)
  else if 0 ≤ e then
    if 308 < e then none
    else
      let x := (Binary64.ofNat n).mul (power e.toNat)
      if x.isInfinite then none else some x
  else
    let steps := (e.natAbs - 1) / 308
    let x := (List.replicate (min steps 3) ()).foldl (fun (x : Binary64) _ => x.div (power 308)) (Binary64.ofNat n)
    some (x.div (power (e.natAbs - 308 * steps)))

/-- The value of a number; `none` if it is too large. A negative zero is not an integer. -/
def value? (n : Numeral) : Option Json :=
  let (head, dropped) := fill 0 n.whole
  let (digits, ignored) := fill head n.fraction
  let shift : Int := dropped.length - (n.fraction.length - ignored.length : Nat)
  let float (e : Int) : Option Json := (scaled? digits e).map fun x => .float (x.withSign n.negative)
  match n.exponent with
  | some e =>
    if greatestExponent < e.natAbs then
      if digits ≠ 0 ∧ 0 < e then none else some (.float (.zero n.negative))
    else float (shift + e)
  | none =>
    if n.fraction.isEmpty && dropped.isEmpty then
      if !n.negative then some (.int head)
      else if head ≠ 0 ∧ head ≤ Nat.pow 2 63 then some (.int (-head))
      else float 0
    else float shift

end Numeral

end Composables.Json
