import Semant.Number.Binary64
import Semant.Number.Decimal

/-! Decimal approximations of a positive binary number, computed exactly: to a given number of
significant digits or of places after the point, and with the fewest digits that still determine
the number. -/

namespace Semant

/-- The quotient rounded to the nearest whole number, a half to the even neighbour. -/
def roundDiv (num den : Nat) : Nat :=
  let quotient := num / den
  let twice := 2 * (num % den)
  if twice < den then quotient
  else if den < twice then quotient + 1
  else quotient + quotient % 2

/-- The exponent `e` with `10 ^ e ≤ num / den < 10 ^ (e + 1)`. -/
def decimalExponent (num den : Nat) : Int :=
  if den ≤ num then Decimal.digitCount (num / den) - 1
  else -(Decimal.digitCount ((den - 1) / num) : Int)

namespace Binary64

/-- The number is `numerator / denominator`, up to its sign. -/
def numerator (x : Binary64) : Nat :=
  x.significand * Nat.pow 2 x.scale

def denominator : Nat := Nat.pow 2 1074

/-- The quotient `num / (den * 10 ^ e)` as numerator and denominator. -/
def scaled (num den : Nat) (e : Int) : Nat × Nat :=
  (num * Nat.pow 10 (-e).toNat, den * Nat.pow 10 e.toNat)

/-- The magnitude in `digits` significant digits, rounded half to even. A carry into another digit
raises the exponent. -/
def significant (digits : Nat) (x : Binary64) : Decimal :=
  let e := decimalExponent x.numerator denominator
  let unit := e - (digits - 1 : Nat)
  let (num, den) := scaled x.numerator denominator unit
  let coefficient := roundDiv num den
  if coefficient = Nat.pow 10 digits then
    { coefficient := Nat.pow 10 (digits - 1), exponent := unit + 1 }
  else { coefficient, exponent := unit }

/-- How often `10 ^ -places` goes into the magnitude, rounded half to even. -/
def rounded (places : Nat) (x : Binary64) : Nat :=
  let (num, den) := scaled x.numerator denominator (-places)
  roundDiv num den

/-- Whether the decimal reads back as `x`: it is within half a step of the neighbouring binary
numbers, the ends being in if the significand is even. The step below a power of two is half the
step above. -/
def readsAs (x : Binary64) (d : Decimal) : Bool :=
  let below := if x.fractionField = 0 ∧ 1 < x.exponentField then 1 else 2
  let value := 4 * x.significand
  let (num, den) := scaled (4 * d.coefficient * denominator) 1 (-d.exponent)
  let unit := Nat.pow 2 x.scale * den
  if x.significand % 2 = 0 then (value - below) * unit ≤ num && num ≤ (value + 2) * unit
  else (value - below) * unit < num && num < (value + 2) * unit

/-- The better of the two neighbours of `x` among the decimals of `digits` digits, if one of them
reads back. Of two that lie equally near, the larger is taken. -/
def neighbour? (digits : Nat) (x : Binary64) : Option Decimal :=
  let unit := decimalExponent x.numerator denominator - (digits - 1 : Nat)
  let (num, den) := scaled x.numerator denominator unit
  let down : Decimal := { coefficient := num / den, exponent := unit }
  let up : Decimal := { coefficient := num / den + 1, exponent := unit }
  if x.readsAs down && (!x.readsAs up || 2 * (num % den) < den) then some down
  else if x.readsAs up then some up
  else none

/-- The magnitude in the fewest digits that read back as `x`. Seventeen always do. -/
def shortest (x : Binary64) : Decimal :=
  ((List.range 17).findSome? fun n => x.neighbour? (n + 1)).getD (x.significant 17)

end Binary64

end Semant
