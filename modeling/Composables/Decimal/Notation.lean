import Composables.Decimal.Shortest

/-
  Laying out a number in decimal: which exponents are written out in full, and how.
-/

namespace Composables.Decimal

/-- How numbers are written. -/
structure Notation where
  /-- Numbers whose leading digit has an exponent from here … -/
  plainFrom : Int
  /-- … and below this one are written without an exponent. -/
  plainBelow : Int
  /-- Whether integers written without an exponent get a point and a zero. -/
  pointZero : Bool
  /-- Whether an exponent that is not negative has a plus sign. -/
  plusSign : Bool
  tie : Tie
deriving DecidableEq, Repr

def zeros (n : Nat) : String := String.ofList (List.replicate n '0')

/-- The layout of a positive decimal whose last digit is not zero. -/
def Notation.layout (style : Notation) (d : Digits) : String :=
  let ds := toString d.digits
  let count := ds.length
  let leading := d.exponent + count - 1
  if style.plainFrom ≤ leading ∧ leading < style.plainBelow then
    if 0 ≤ d.exponent then
      ds ++ zeros d.exponent.toNat ++ if style.pointZero then ".0" else ""
    else if 0 ≤ leading then
      let whole := leading.toNat + 1
      String.ofList (ds.toList.take whole) ++ "." ++ String.ofList (ds.toList.drop whole)
    else
      "0." ++ zeros (-leading - 1).toNat ++ ds
  else
    let point := if count = 1 then "" else "."
    let sign := if style.plusSign && 0 ≤ leading then "+" else ""
    String.ofList (ds.toList.take 1) ++ point ++ String.ofList (ds.toList.drop 1) ++ "e" ++ sign ++ toString leading

/-- Writes a number with the fewest digits that read back; zero keeps its sign. -/
def Notation.render (style : Notation) (x : Binary64) : String :=
  let sign := if x.isNegative then "-" else ""
  match x with
  | .infinite _ => sign ++ "inf"
  | .finite _ m q =>
    sign ++ if m = 0 then (if style.pointZero then "0.0" else "0") else style.layout (shortest m q style.tie)

end Composables.Decimal
