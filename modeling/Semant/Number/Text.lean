import Semant.Number.Rounding

/-! The two written forms of floating point numbers: as a literal of the language, and as the
language's print primitives show them. -/

namespace Semant.Binary64

/-- Sign, then a word for what is not a finite number, a zero, or the digits. -/
def write (nan infinity zero : String) (digits : Binary64 → String) (x : Binary64) : String :=
  let sign := if x.isNegative then "-" else ""
  if x.isNaN then nan
  else if x.isInfinite then sign ++ infinity
  else if x.isZero then sign ++ zero
  else sign ++ digits x

/-- The literal with the fewest digits that denotes the number. -/
def literalText : Binary64 → String :=
  write "NaN" "inf" "0.0" fun x => x.shortest.text

/-- The magnitude with `places` digits after the point. -/
def fixed (places : Nat) (x : Binary64) : String :=
  Decimal.pointed places (x.rounded places)

/-- The magnitude in six significant digits. A number from `10 ^ -4` to below `10 ^ 6`, as rounded,
is written out: it is rounded once more, to the places that are left for its fraction. -/
def printDigits (x : Binary64) : String :=
  let mantissa := x.significant 6
  let e := mantissa.magnitude
  if -4 ≤ e ∧ e < 6 then Decimal.trimFraction (x.fixed (5 - e).toNat)
  else
    Decimal.trimFraction (Decimal.pointed 5 mantissa.coefficient) ++ "e" ++
      (if e < 0 then "-" else "+") ++ Decimal.padded 2 e.natAbs

/-- The printed form. A NaN shows its sign. -/
def printText (x : Binary64) : String :=
  let nan := if x.isNegative then "-nan" else "nan"
  write nan "inf" "0" printDigits x

end Semant.Binary64
