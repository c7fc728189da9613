import Mathlib.Algebra.Order.Field.Basic
import Mathlib.Algebra.Order.Field.Power
import Mathlib.Algebra.Order.Field.Rat
import Mathlib.Tactic.Linarith
import Mathlib.Tactic.Positivity
import Mathlib.Tactic.Ring
import Semant.Number.Rounding

/-! Correct rounding to decimal digits. A positive rational number lies between two powers of ten;
its significant digits are the nearest whole number of units of the last digit, a half going to the
even one. Rounding may reach the upper power of ten, which has one digit more and is written with
the next exponent. -/

namespace Semant

/-- A whole number nearest to `q`, the even one if there are two. -/
structure NearestEven (q : ℚ) (n : ℕ) : Prop where
  near : |q - n| ≤ 1 / 2
  even_of_half : |q - n| = 1 / 2 → Even n

namespace NearestEven

variable {q : ℚ} {n n' a : ℕ}

theorem lower (h : NearestEven q n) (ha : (a : ℚ) ≤ q) : a ≤ n := by
  have hlow := (abs_le.mp h.near).2
  have hlt : (a : ℚ) < (n + 1 : ℕ) := by push_cast; linarith
  exact Nat.lt_succ_iff.mp (Nat.cast_lt.mp hlt)

theorem upper (h : NearestEven q n) (ha : q ≤ a) : n ≤ a := by
  have hhigh := (abs_le.mp h.near).1
  have hlt : (n : ℚ) < (a + 1 : ℕ) := by push_cast; linarith
  exact Nat.lt_succ_iff.mp (Nat.cast_lt.mp hlt)

/-- Of two nearest numbers that differ, both lie half a unit off and only one is even. -/
theorem not_lt (h : NearestEven q n) (h' : NearestEven q n') : ¬ n < n' := by
  intro hlt
  have hlow := (abs_le.mp h.near).2
  have hhigh := (abs_le.mp h'.near).1
  have hstep : n' = n + 1 := by
    have hle : (n' : ℚ) ≤ (n + 1 : ℕ) := by push_cast; linarith
    have := Nat.cast_le.mp hle
    omega
  subst hstep
  push_cast at hhigh
  have hq : q = n + 1 / 2 := by linarith
  have heven : Even n := h.even_of_half (by rw [hq, add_sub_cancel_left]; norm_num)
  have heven' : Even (n + 1) := h'.even_of_half (by rw [hq]; push_cast; ring_nf; norm_num)
  exact Nat.even_add_one.mp heven' heven

theorem unique (h : NearestEven q n) (h' : NearestEven q n') : n = n' :=
  Nat.le_antisymm (Nat.not_lt.mp (h'.not_lt h)) (Nat.not_lt.mp (h.not_lt h'))

theorem of_near (h : |q - n| < 1 / 2) : NearestEven q n where
  near := h.le
  even_of_half heq := absurd heq h.ne

end NearestEven

theorem cast_div_eq_div_add_mod (num : ℕ) {den : ℕ} (hden : 0 < den) :
    (num / den : ℚ) = (num / den : ℕ) + (num % den : ℕ) / den := by
  have hpos : (0 : ℚ) < den := Nat.cast_pos.mpr hden
  have hnum : (num : ℚ) = (num / den : ℕ) * den + (num % den : ℕ) := by
    exact_mod_cast (Nat.div_add_mod' num den).symm
  conv_lhs => rw [hnum]
  rw [add_div, mul_div_cancel_right₀ _ hpos.ne']

theorem roundDiv_nearestEven {num den : ℕ} (hden : 0 < den) :
    NearestEven (num / den) (roundDiv num den) := by
  have hpos : (0 : ℚ) < den := Nat.cast_pos.mpr hden
  have hrem : ((num % den : ℕ) : ℚ) / den < 1 :=
    (div_lt_one hpos).mpr (Nat.cast_lt.mpr (Nat.mod_lt num hden))
  have hrem' : 0 ≤ ((num % den : ℕ) : ℚ) / den := by positivity
  rw [cast_div_eq_div_add_mod num hden]
  simp only [roundDiv]
  split
  · rename_i hlow
    apply NearestEven.of_near
    rw [add_sub_cancel_left, abs_of_nonneg hrem', div_lt_div_iff₀ hpos two_pos]
    exact_mod_cast (by omega : num % den * 2 < 1 * den)
  · split
    · rename_i hhigh
      apply NearestEven.of_near
      have hhalf : 1 / 2 < ((num % den : ℕ) : ℚ) / den := by
        rw [div_lt_div_iff₀ two_pos hpos]
        exact_mod_cast (by omega : 1 * den < num % den * 2)
      rw [abs_lt]
      push_cast
      constructor <;> linarith
    · rename_i hlow hhigh
      have htie : ((num % den : ℕ) : ℚ) / den = 1 / 2 := by
        rw [div_eq_div_iff hpos.ne' two_ne_zero]
        exact_mod_cast (by omega : num % den * 2 = 1 * den)
      rw [htie]
      obtain hpar | hpar := Nat.mod_two_eq_zero_or_one (num / den)
      · rw [hpar]
        exact ⟨by norm_num, fun _ => Nat.even_iff.mpr hpar⟩
      · rw [hpar]
        refine ⟨by push_cast; ring_nf; norm_num, fun _ => ?_⟩
        exact Nat.even_iff.mpr (by omega)

namespace Decimal

/-- The digits of a number tell the powers of ten that it lies between. -/
theorem digitCount_bounds {n : ℕ} (hn : 0 < n) :
    ∃ k, digitCount n = k + 1 ∧ 10 ^ k ≤ n ∧ n < 10 ^ (k + 1) := by
  fun_induction digitCount n with
  | case1 n hlt => exact ⟨0, rfl, hn, hlt⟩
  | case2 n hge ih =>
    obtain ⟨k, hk, hlow, hhigh⟩ := ih (by omega)
    refine ⟨k + 1, by rw [hk], ?_, ?_⟩
    · rw [Nat.pow_succ]
      omega
    · rw [Nat.pow_succ 10 (k + 1)]
      omega

theorem digitCount_eq {p n : ℕ} (hlow : 10 ^ p ≤ n) (hhigh : n < 10 ^ (p + 1)) :
    digitCount n = p + 1 := by
  have hn : 0 < n := Nat.lt_of_lt_of_le (Nat.pow_pos (by decide)) hlow
  obtain ⟨k, hk, hlow', hhigh'⟩ := digitCount_bounds hn
  have hle := (Nat.pow_lt_pow_iff_right (by decide)).mp (Nat.lt_of_le_of_lt hlow hhigh')
  have hge := (Nat.pow_lt_pow_iff_right (by decide)).mp (Nat.lt_of_le_of_lt hlow' hhigh)
  omega

end Decimal

/-- The exponent of the leading digit: `10 ^ k ≤ q < 10 ^ (k + 1)`. -/
structure LeadingDigit (q : ℚ) (k : ℤ) : Prop where
  low : 10 ^ k ≤ q
  high : q < 10 ^ (k + 1)

theorem LeadingDigit.unique {q : ℚ} {k k' : ℤ} (h : LeadingDigit q k) (h' : LeadingDigit q k') :
    k = k' := by
  have hle := (zpow_lt_zpow_iff_right₀ (by norm_num : (1 : ℚ) < 10)).mp (h.low.trans_lt h'.high)
  have hge := (zpow_lt_zpow_iff_right₀ (by norm_num : (1 : ℚ) < 10)).mp (h'.low.trans_lt h.high)
  omega

theorem decimalExponent_leadingDigit {num den : ℕ} (hnum : 0 < num) (hden : 0 < den) :
    LeadingDigit (num / den) (decimalExponent num den) := by
  have hnum' : (0 : ℚ) < num := Nat.cast_pos.mpr hnum
  have hden' : (0 : ℚ) < den := Nat.cast_pos.mpr hden
  unfold decimalExponent
  split
  · rename_i hle
    have hpos : 0 < num / den := Nat.div_pos hle hden
    obtain ⟨k, hk, hlow, hhigh⟩ := Decimal.digitCount_bounds hpos
    rw [Nat.le_div_iff_mul_le hden] at hlow
    rw [Nat.div_lt_iff_lt_mul hden] at hhigh
    rw [hk, Nat.cast_add_one, add_sub_cancel_right]
    constructor
    · rw [le_div_iff₀ hden', zpow_natCast]
      exact_mod_cast hlow
    · rw [div_lt_iff₀ hden', ← Nat.cast_add_one, zpow_natCast]
      exact_mod_cast hhigh
  · rename_i hlt
    have hpos : 0 < (den - 1) / num := Nat.div_pos (by omega) hnum
    obtain ⟨k, hk, hlow, hhigh⟩ := Decimal.digitCount_bounds hpos
    rw [Nat.le_div_iff_mul_le hnum] at hlow
    rw [Nat.div_lt_iff_lt_mul hnum] at hhigh
    rw [hk]
    constructor
    · rw [zpow_neg, inv_le_comm₀ (by positivity) (by positivity), inv_div, div_le_iff₀ hnum',
        zpow_natCast]
      exact_mod_cast (by omega : den ≤ 10 ^ (k + 1) * num)
    · rw [Nat.cast_add_one, neg_add, neg_add_cancel_right, zpow_neg,
        lt_inv_comm₀ (by positivity) (by positivity), inv_div, lt_div_iff₀ hnum', zpow_natCast]
      exact_mod_cast (by omega : 10 ^ k * num < den)

/-- The number `q` rounded to `p + 1` significant digits: `coefficient * 10 ^ (exponent - p)`. -/
inductive Significant (p : ℕ) (q : ℚ) : (coefficient : ℕ) → (exponent : ℤ) → Prop
  | within {k : ℤ} {n : ℕ} : LeadingDigit q k → NearestEven (q / 10 ^ (k - p)) n →
    n < 10 ^ (p + 1) → Significant p q n k
  | carry {k : ℤ} : LeadingDigit q k → NearestEven (q / 10 ^ (k - p)) (10 ^ (p + 1)) →
    Significant p q (10 ^ p) (k + 1)

namespace LeadingDigit

variable {p : ℕ} {q : ℚ} {k : ℤ}

theorem scaled_low (h : LeadingDigit q k) : ((10 ^ p : ℕ) : ℚ) ≤ q / 10 ^ (k - p) := by
  rw [le_div_iff₀ (by positivity), Nat.cast_pow, ← zpow_natCast, Nat.cast_ofNat,
    ← zpow_add₀ (by norm_num), add_sub_cancel]
  exact h.low

theorem scaled_high (h : LeadingDigit q k) : q / 10 ^ (k - p) < ((10 ^ (p + 1) : ℕ) : ℚ) := by
  rw [div_lt_iff₀ (by positivity), Nat.cast_pow, ← zpow_natCast, Nat.cast_ofNat,
    ← zpow_add₀ (by norm_num), Nat.cast_add_one, add_right_comm, add_sub_cancel]
  exact h.high

end LeadingDigit

namespace Significant

variable {p m m' : ℕ} {q : ℚ} {e e' : ℤ}

theorem bounds (h : Significant p q m e) : 10 ^ p ≤ m ∧ m < 10 ^ (p + 1) := by
  cases h with
  | within hk hn hlt => exact ⟨hn.lower hk.scaled_low, hlt⟩
  | carry => exact ⟨Nat.le_refl _, Nat.pow_lt_pow_succ (by decide)⟩

/-- The coefficient is also what rounding with the final exponent gives. After a carry the number
lies within a twentieth of the power of ten that it is rounded to. -/
theorem nearestEven (h : Significant p q m e) : NearestEven (q / 10 ^ (e - p)) m := by
  cases h with
  | within _ hn _ => exact hn
  | @carry k hk hn =>
    apply NearestEven.of_near
    have hnear := (abs_le.mp hn.near).1
    have hhigh := hk.scaled_high (p := p)
    have hunit : q / 10 ^ (k + 1 - p) = q / 10 ^ (k - p) / 10 := by
      rw [add_sub_right_comm, zpow_add_one₀ (by norm_num), div_div]
    rw [hunit, abs_lt]
    push_cast [pow_succ] at hnear hhigh ⊢
    constructor <;> linarith

theorem unique (h : Significant p q m e) (h' : Significant p q m' e') : m = m' ∧ e = e' := by
  cases h with
  | within hk hn hlt =>
    cases h' with
    | within hk' hn' hlt' =>
      cases hk.unique hk'
      exact ⟨hn.unique hn', rfl⟩
    | carry hk' hn' =>
      cases hk.unique hk'
      exact absurd (hn.unique hn') hlt.ne
  | carry hk hn =>
    cases h' with
    | within hk' hn' hlt' =>
      cases hk.unique hk'
      exact absurd (hn'.unique hn) hlt'.ne
    | carry hk' hn' =>
      cases hk.unique hk'
      exact ⟨rfl, rfl⟩

end Significant

namespace Binary64

theorem denominator_pos : 0 < denominator := by
  decide +kernel

theorem scaled_ratio (num den : ℕ) (e : ℤ) :
    ((scaled num den e).1 : ℚ) / (scaled num den e).2 = num / den / 10 ^ e := by
  have hpow : (10 : ℚ) ^ e = 10 ^ e.toNat / 10 ^ (-e).toNat := by
    rw [← zpow_natCast, ← zpow_natCast, ← zpow_sub₀ (by norm_num)]
    congr 1
    omega
  rw [hpow]
  simp only [scaled, Nat.pow_eq]
  push_cast
  rw [div_div_div_eq]

theorem roundDiv_scaled {den : ℕ} (hden : 0 < den) (num : ℕ) (e : ℤ) :
    NearestEven (num / den / 10 ^ e) (roundDiv (scaled num den e).1 (scaled num den e).2) := by
  rw [← scaled_ratio]
  exact roundDiv_nearestEven (Nat.mul_pos hden (Nat.pow_pos (by decide)))

/-- The number of the bits up to its sign, for a finite number. -/
def ratio (x : Binary64) : ℚ :=
  x.numerator / denominator

theorem rounded_nearestEven (places : ℕ) (x : Binary64) :
    NearestEven (x.ratio / 10 ^ (-places : ℤ)) (x.rounded places) :=
  roundDiv_scaled denominator_pos x.numerator (-places)

theorem significant_exponent (p : ℕ) {x : Binary64} (hx : 0 < x.numerator) :
    Significant p x.ratio (x.significant (p + 1)).coefficient
      ((x.significant (p + 1)).exponent + p) := by
  have hdigit : LeadingDigit x.ratio _ := decimalExponent_leadingDigit hx denominator_pos
  have hround : NearestEven (x.ratio / _) _ := roundDiv_scaled denominator_pos x.numerator
    (decimalExponent x.numerator denominator - p)
  have hle := hround.upper hdigit.scaled_high.le
  simp only [significant, Nat.add_sub_cancel, Nat.pow_eq]
  generalize roundDiv _ _ = coefficient at hround hle ⊢
  split
  · rename_i hcarry
    subst hcarry
    rw [sub_add_eq_add_sub, sub_add_cancel]
    exact .carry hdigit hround
  · rename_i hwithin
    rw [sub_add_cancel]
    exact .within hdigit hround (Nat.lt_of_le_of_ne hle hwithin)

theorem significant_magnitude (p : ℕ) {x : Binary64} (hx : 0 < x.numerator) :
    Significant p x.ratio (x.significant (p + 1)).coefficient
      (x.significant (p + 1)).magnitude := by
  have hsig := significant_exponent p hx
  obtain ⟨hlow, hhigh⟩ := hsig.bounds
  have hcount := Decimal.digitCount_eq hlow hhigh
  rw [Decimal.magnitude, hcount, Nat.cast_add_one, ← add_assoc, add_sub_cancel_right]
  exact hsig

/-- Rounding to the places that the significant digits leave gives the same digits. -/
theorem rounded_of_significant {p m : ℕ} {e : ℤ} {x : Binary64} (h : Significant p x.ratio m e)
    (he : e ≤ p) : x.rounded (p - e).toNat = m := by
  have hround := rounded_nearestEven (p - e).toNat x
  rw [Int.toNat_of_nonneg (by omega), neg_sub] at hround
  exact hround.unique h.nearestEven

end Binary64

end Semant
