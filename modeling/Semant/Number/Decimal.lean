/-! Decimal numbers and their written forms. -/

namespace Semant

/-- The number `coefficient * 10 ^ exponent`. -/
structure Decimal where
  coefficient : Nat
  exponent : Int
  deriving DecidableEq

namespace Decimal

/-- How many decimal digits a natural number has; zero has one. -/
def digitCount (n : Nat) : Nat :=
  if n < 10 then 1 else digitCount (n / 10) + 1

/-- The power of ten of the leading digit. -/
def magnitude (d : Decimal) : Int :=
  d.exponent + digitCount d.coefficient - 1

/-- The same number without zeros at the end of its coefficient. -/
def trim (d : Decimal) : Decimal :=
  if _h : d.coefficient ≠ 0 ∧ d.coefficient % 10 = 0 then
    trim { coefficient := d.coefficient / 10, exponent := d.exponent + 1 }
  else d
termination_by d.coefficient
decreasing_by omega

/-- A natural number in at least `width` digits. -/
def padded (width n : Nat) : String :=
  let digits := toString n
  "".pushn '0' (width - digits.length) ++ digits

/-- The digits of a natural number with a point before the last `places` of them. -/
def pointed (places n : Nat) : String :=
  let unit := Nat.pow 10 places
  toString (n / unit) ++ if places = 0 then "" else "." ++ padded places (n % unit)

/-- The digits before and after the point, at least one on each side. -/
def positional (d : Decimal) : String :=
  if 0 ≤ d.exponent then toString (d.coefficient * Nat.pow 10 d.exponent.toNat) ++ ".0"
  else pointed (-d.exponent).toNat d.coefficient

/-- One digit before the point, then the power of ten. -/
def scientific (d : Decimal) : String :=
  pointed (digitCount d.coefficient - 1) d.coefficient ++ "e" ++ toString d.magnitude

/-- The text of a positive number as a literal. Numbers from `10 ^ -4` to below `10 ^ 16` are
written out. -/
def text (d : Decimal) : String :=
  let d := d.trim
  if -4 ≤ d.magnitude ∧ d.magnitude < 16 then d.positional else d.scientific

/-- What is left before a run of `c` at the end. -/
def dropEnd (c : Char) (cs : List Char) : List Char :=
  (cs.reverse.dropWhile (· == c)).reverse

/-- A text with a point loses the zeros at its end, and the point if nothing else follows it. -/
def trimFraction (text : String) : String :=
  if text.toList.contains '.' then String.ofList (dropEnd '.' (dropEnd '0' text.toList)) else text

end Decimal

end Semant
