import Composables.Decimal.Binary64
import Composables.Text.Digits

/-
  Numbers in GraphQL text. A number with a point or an exponent mark is a float, any other an integer.
-/

namespace Composables.Graphql.Numeral

open Decimal (Binary64)

/-- The sign and the digits of a whole number. A zero stands alone. -/
def whole? (cs : List Char) : Option (Bool × List Char) :=
  let (negative, ds) := match cs with
    | '-' :: ds => (true, ds)
    | ds => (false, ds)
  if !ds.isEmpty && ds.all Char.isDigit && (ds.length == 1 || ds.head? != some '0') then some (negative, ds)
  else none

/-- Digits after a point, at least one. -/
def fraction? (cs : List Char) : Option (List Char) :=
  if !cs.isEmpty && cs.all Char.isDigit then some cs else none

/-- The digits behind an exponent mark. Without a sign they open with one of `1` to `8`. -/
def exponent? : List Char → Option Int
  | '+' :: ds => (fraction? ds).map fun ds => Text.decimalValue ds
  | '-' :: ds => (fraction? ds).map fun ds => -Text.decimalValue ds
  | c :: ds =>
    if '1' ≤ c ∧ c ≤ '8' then (fraction? (c :: ds)).map fun ds => Text.decimalValue ds else none
  | [] => none

def isMark (c : Char) : Bool := c == 'e' || c == 'E'

/-- A text cut at the last character of a class; without one, all of it is in front. -/
def cutLast (p : Char → Bool) (cs : List Char) : List Char × Option (List Char) :=
  match cs.reverse.span (fun c => !p c) with
  | (_, []) => (cs, none)
  | (after, _ :: before) => (before.reverse, some after.reverse)

/-- An integer, if it fits 64 bits with a sign. -/
def int? (cs : List Char) : Option Int := do
  let (negative, ds) ← whole? cs
  let n : Int := if negative then -Text.decimalValue ds else Text.decimalValue ds
  if -limit ≤ n ∧ n < limit then some n else none
where
  limit : Int := Nat.pow 2 63

/-- The float nearest to the number written. An exponent mark before the point is refused. -/
def float? (cs : List Char) : Option Binary64 := do
  let (mantissa, exponent) := cutLast isMark cs
  let e ← match exponent with
    | none => some 0
    | some ds => exponent? ds
  let (whole, fraction) := cutLast (· == '.') mantissa
  let (negative, ds) ← whole? whole
  let fs ← match fraction with
    | none => some []
    | some ds => fraction? ds
  return .ofScientific negative (Text.decimalValue (ds ++ fs)) (e - fs.length)

def isFloat (cs : List Char) : Bool := cs.any fun c => c == '.' || isMark c

end Composables.Graphql.Numeral
