import Mathlib.Data.Sign.Basic
import Semant.Number.Text
import Semant.Proofs.Number.Numeral

/-! What the print primitives show of a number. The text is a numeral for the number rounded to six
significant digits, written out or with a power of ten as its exponent asks. The exponent is known
from a first rounding and the digits that are written out come from a second one, to the places
after the point that six digits leave. -/

namespace Semant

namespace Numeral

theorem text_ofPlaces (negative : Bool) (places n : ℕ) :
    (ofPlaces negative places n none).text =
      (if negative then "-" else "") ++ Decimal.trimFraction (Decimal.pointed places n) := by
  apply String.toList_injective
  rw [text, String.toList_ofList, String.toList_append, Decimal.trimFraction_pointed]
  cases negative <;> simp [signChars, powerChars]

theorem text_ofPlaces_exponent (negative : Bool) (places n : ℕ) (e : ℤ) :
    (ofPlaces negative places n (some e)).text =
      (if negative then "-" else "") ++ (Decimal.trimFraction (Decimal.pointed places n) ++ "e" ++
        (if e < 0 then "-" else "+") ++ Decimal.padded 2 e.natAbs) := by
  apply String.toList_injective
  simp only [text, String.toList_ofList, String.toList_append, Decimal.trimFraction_pointed]
  cases negative <;> by_cases he : e < 0 <;> simp [signChars, powerChars, signed, he]

end Numeral

namespace Binary64

/-- The number that the bits of a finite pattern stand for. -/
def value (x : Binary64) : ℚ :=
  (if x.isNegative then -1 else 1) *
    if x.exponentField = 0 then x.fractionField * (2 : ℚ) ^ (-1074 : ℤ)
    else (2 ^ 52 + x.fractionField) * (2 : ℚ) ^ (x.exponentField - 1075 : ℤ)

theorem cast_two_pow (n : ℕ) : ((Nat.pow 2 n : ℕ) : ℚ) = 2 ^ (n : ℤ) := by
  rw [Nat.pow_eq, Nat.cast_pow, Nat.cast_ofNat, zpow_natCast]

theorem ratio_eq (x : Binary64) : x.ratio = x.significand * 2 ^ (x.scale - 1074 : ℤ) := by
  have hden : (denominator : ℚ) = 2 ^ ((1074 : ℕ) : ℤ) := by
    delta denominator
    generalize 1074 = n
    exact cast_two_pow n
  rw [ratio, numerator, Nat.cast_mul, cast_two_pow, hden, mul_div_assoc,
    ← zpow_sub₀ two_ne_zero, Nat.cast_ofNat]

theorem value_eq_ratio (x : Binary64) : x.value = (if x.isNegative then -1 else 1) * x.ratio := by
  rw [value, ratio_eq, significand, scale]
  congr 1
  split
  · rename_i hsubnormal
    rw [hsubnormal]
    rfl
  · rename_i hnormal
    rw [Nat.cast_add, cast_two_pow, Nat.cast_sub (by omega)]
    congr 2
    push_cast
    ring

theorem numerator_pos {x : Binary64} (hx : x.isZero = false) : 0 < x.numerator := by
  refine Nat.mul_pos ?_ (Nat.pow_pos (by decide))
  rw [isZero, Bool.and_eq_false_iff, beq_eq_false_iff_ne, beq_eq_false_iff_ne] at hx
  unfold significand
  split
  · omega
  · exact Nat.add_pos_left (Nat.pow_pos (by decide)) _

theorem ratio_pos {x : Binary64} (hx : x.isZero = false) : 0 < x.ratio :=
  div_pos (Nat.cast_pos.mpr (numerator_pos hx)) (Nat.cast_pos.mpr denominator_pos)

theorem abs_value {x : Binary64} (hx : x.isZero = false) : |x.value| = x.ratio := by
  rw [value_eq_ratio]
  split <;> simp [abs_of_pos (ratio_pos hx)]

theorem sign_value {x : Binary64} (hx : x.isZero = false) :
    (SignType.sign x.value : ℚ) = if x.isNegative then -1 else 1 := by
  rw [value_eq_ratio]
  split <;> simp [ratio_pos hx]

/-- The numeral that is printed for `coefficient * 10 ^ (exponent - 5)`. -/
def sixDigits (negative : Bool) (coefficient : ℕ) (exponent : ℤ) : Numeral :=
  if -4 ≤ exponent ∧ exponent < 6 then
    .ofPlaces negative (5 - exponent).toNat coefficient none
  else .ofPlaces negative 5 coefficient (some exponent)

theorem text_sixDigits {x : Binary64} (hnan : x.isNaN = false) (hinf : x.isInfinite = false)
    (hzero : x.isZero = false) {m : ℕ} {e : ℤ} (h : Significant 5 x.ratio m e) :
    (sixDigits x.isNegative m e).text = x.printText := by
  have hsig : Significant 5 x.ratio (x.significant 6).coefficient (x.significant 6).magnitude :=
    significant_magnitude 5 (numerator_pos hzero)
  simp only [printText, write, hnan, hinf, hzero, Bool.false_eq_true, if_false, printDigits,
    sixDigits]
  generalize x.significant 6 = mantissa at hsig ⊢
  obtain ⟨rfl, rfl⟩ := h.unique hsig
  split
  · rename_i hplain
    have hdigits : x.rounded (5 - mantissa.magnitude).toNat = mantissa.coefficient :=
      rounded_of_significant h (Int.le_of_lt_add_one hplain.2)
    rw [Numeral.text_ofPlaces, fixed, hdigits]
  · rw [Numeral.text_ofPlaces_exponent]

theorem value_sixDigits (negative : Bool) (m : ℕ) (e : ℤ) :
    (sixDigits negative m e).value = (if negative then -1 else 1) * m * 10 ^ (e - 5) := by
  unfold sixDigits
  split
  · rename_i hplain
    have hpow : (10 : ℚ) ^ (5 - e).toNat = 10 ^ (5 - e) := by
      rw [← zpow_natCast, Int.toNat_of_nonneg (by omega)]
    rw [Numeral.value_ofPlaces, hpow, Option.getD_none, zpow_zero, mul_one, ← neg_sub e 5, zpow_neg,
      div_inv_eq_mul, mul_assoc]
  · rw [Numeral.value_ofPlaces, Option.getD_some, zpow_sub₀ (by norm_num)]
    simp only [mul_assoc, zpow_ofNat]
    ring

theorem tidy_sixDigits (negative : Bool) (m : ℕ) (e : ℤ) : (sixDigits negative m e).Tidy := by
  unfold sixDigits
  split <;> exact Numeral.tidy_ofPlaces ..

theorem power_sixDigits_eq_none {negative : Bool} {m : ℕ} {e : ℤ} :
    (sixDigits negative m e).power = none ↔ -4 ≤ e ∧ e ≤ 5 := by
  unfold sixDigits
  split <;> simp <;> omega

theorem power_sixDigits {negative : Bool} {m : ℕ} {e : ℤ} (hlow : 10 ^ 5 ≤ m) (hhigh : m < 10 ^ 6)
    {power : Bool × List Char} (hpower : (sixDigits negative m e).power = some power) :
    (∃ d, (sixDigits negative m e).whole = [d] ∧ d ≠ '0') ∧ 2 ≤ power.2.length := by
  unfold sixDigits at hpower ⊢
  split at hpower
  · simp at hpower
  · rename_i hplain
    rw [if_neg hplain]
    have hdigit : m / 10 ^ 5 < 10 := by omega
    have hpos : 0 < m / 10 ^ 5 := by omega
    simp only [Numeral.ofPlaces_power, Option.map_some, Option.some.injEq] at hpower
    refine ⟨⟨(m / 10 ^ 5).digitChar, ?_, ?_⟩, ?_⟩
    · rw [Numeral.ofPlaces_whole, Nat.toDigits_of_lt_base hdigit]
    · have hhead := Numeral.head_toDigits hpos
      rw [Nat.toDigits_of_lt_base hdigit] at hhead
      simpa using hhead
    · rw [← hpower]
      simp only [Numeral.signed]
      exact Decimal.le_length_padded 2 e.natAbs

/-- The printed text of a number that is finite and not zero. Let `m` and `e` be its six significant
digits and their exponent. The text can be read in one way, as a numeral that denotes the rounded
number; it has a power of ten if and only if `e` is not from -4 to 5, and then one digit, not zero,
before the point and at least two in the exponent. A fraction has a last digit other than zero. -/
theorem printText_six_digits (x : Binary64) (hnan : x.isNaN = false) (hinf : x.isInfinite = false)
    (hzero : x.isZero = false) :
    ∃ (m : ℕ) (e : ℤ), (∀ m' e', Significant 5 |x.value| m' e' ↔ m' = m ∧ e' = e) ∧
      10 ^ 5 ≤ m ∧ m < 10 ^ 6 ∧
      ∃ n : Numeral, (∀ n' : Numeral, n'.text = x.printText ↔ n' = n) ∧
        n.value = SignType.sign x.value * m * 10 ^ (e - 5) ∧
        (n.power = none ↔ -4 ≤ e ∧ e ≤ 5) ∧
        (∀ power, n.power = some power →
          (∃ d, n.whole = [d] ∧ d ≠ '0') ∧ 2 ≤ power.2.length) ∧
        n.Tidy := by
  have hsig := significant_magnitude 5 (numerator_pos hzero)
  generalize (x.significant (5 + 1)).coefficient = m at hsig
  generalize (x.significant (5 + 1)).magnitude = e at hsig
  have htext := text_sixDigits hnan hinf hzero hsig
  obtain ⟨hlow, hhigh⟩ := hsig.bounds
  refine ⟨m, e, fun m' e' => ?_, hlow, hhigh, sixDigits x.isNegative m e, fun n' => ?_, ?_,
    power_sixDigits_eq_none, fun _ => power_sixDigits hlow hhigh, tidy_sixDigits _ m e⟩
  · rw [abs_value hzero]
    constructor
    · exact fun h => h.unique hsig
    · rintro ⟨rfl, rfl⟩
      exact hsig
  · constructor
    · exact fun h => Numeral.eq_of_text_eq (h.trans htext.symm)
    · rintro rfl
      exact htext
  · rw [sign_value hzero, value_sixDigits]

/-- The number 999999.5. Its six digits round up to the next power of ten. -/
def nearMillion : Binary64 :=
  ⟨0x412e847f00000000⟩

theorem printText_six_digits_nearMillion : nearMillion.isNaN = false ∧
    nearMillion.isInfinite = false ∧ nearMillion.isZero = false ∧
    ∃ m e, Significant 5 |nearMillion.value| m e ∧
      ∃ n : Numeral, n.text = "1e+06" ∧
        n.value = SignType.sign nearMillion.value * m * 10 ^ (e - 5) ∧ n.Tidy := by
  have hnan : nearMillion.isNaN = false := by decide +kernel
  have hinf : nearMillion.isInfinite = false := by decide +kernel
  have hzero : nearMillion.isZero = false := by decide +kernel
  have htext : nearMillion.printText = "1e+06" := by decide +kernel
  obtain ⟨m, e, hround, -, -, n, hread, hvalue, -, -, htidy⟩ :=
    printText_six_digits nearMillion hnan hinf hzero
  exact ⟨hnan, hinf, hzero, m, e, (hround m e).mpr ⟨rfl, rfl⟩, n,
    ((hread n).mpr rfl).trans htext, hvalue, htidy⟩

end Binary64

end Semant
