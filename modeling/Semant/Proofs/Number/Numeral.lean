import Mathlib.Data.List.DropRight
import Mathlib.Tactic.IntervalCases
import Semant.Proofs.Number.Rounding

/-! Decimal numerals: digits, a fraction after a point, a power of ten with its sign. No text is
the text of two numerals. The texts with a fixed number of places are numerals, and so is what is
left of one when the zeros at the end of its fraction are dropped. -/

namespace Semant

/-- A sign, the digits before the point, those after it, and the exponent with its sign. -/
@[ext]
structure Numeral where
  negative : Bool
  whole : List Char
  fraction : Option (List Char)
  power : Option (Bool × List Char)
  whole_digits : ∀ c ∈ whole, c.isDigit
  fraction_digits : ∀ ds ∈ fraction, ∀ c ∈ ds, c.isDigit
  power_digits : ∀ p ∈ power, ∀ c ∈ p.2, c.isDigit

namespace Numeral

def signChars (negative : Bool) : List Char :=
  if negative then ['-'] else []

def pointChars (fraction : Option (List Char)) : List Char :=
  fraction.elim [] ('.' :: ·)

def powerChars (power : Option (Bool × List Char)) : List Char :=
  power.elim [] fun p => 'e' :: (if p.1 then '-' else '+') :: p.2

def text (n : Numeral) : String :=
  String.ofList (signChars n.negative ++ (n.whole ++ (pointChars n.fraction ++ powerChars n.power)))

def digitsValue (ds : List Char) : ℕ :=
  Nat.ofDigitChars 10 ds 0

def fractionValue (fraction : Option (List Char)) : ℚ :=
  fraction.elim 0 fun ds => digitsValue ds / 10 ^ ds.length

def powerValue (power : Option (Bool × List Char)) : ℤ :=
  power.elim 0 fun p => if p.1 then -digitsValue p.2 else digitsValue p.2

/-- The number that the numeral denotes. -/
def value (n : Numeral) : ℚ :=
  (if n.negative then -1 else 1) * (digitsValue n.whole + fractionValue n.fraction) *
    10 ^ powerValue n.power

/-- A list does not go on with a digit. -/
def Stops (cs : List Char) : Prop :=
  ∀ c ∈ cs.head?, c.isDigit = false

theorem takeWhile_digits {ds rest : List Char} (hds : ∀ c ∈ ds, c.isDigit) (hrest : Stops rest) :
    (ds ++ rest).takeWhile Char.isDigit = ds := by
  rw [List.takeWhile_append_of_pos hds]
  cases rest with
  | nil => exact List.append_nil ds
  | cons c rest => rw [List.takeWhile_cons_of_neg (by simp [hrest c rfl]), List.append_nil]

/-- A run of digits is read to where it stops. -/
theorem append_inj_of_stops {ds ds' rest rest' : List Char} (hds : ∀ c ∈ ds, c.isDigit)
    (hds' : ∀ c ∈ ds', c.isDigit) (hrest : Stops rest) (hrest' : Stops rest')
    (h : ds ++ rest = ds' ++ rest') : ds = ds' ∧ rest = rest' := by
  have hrun : ds = ds' := by
    rw [← takeWhile_digits hds hrest, h, takeWhile_digits hds' hrest']
  subst hrun
  exact ⟨rfl, List.append_cancel_left h⟩

theorem stops_powerChars (power : Option (Bool × List Char)) : Stops (powerChars power) := by
  cases power <;> simp [Stops, powerChars]

theorem stops_pointChars_append (fraction : Option (List Char))
    (power : Option (Bool × List Char)) : Stops (pointChars fraction ++ powerChars power) := by
  cases fraction with
  | none => exact stops_powerChars power
  | some ds => simp [Stops, pointChars]

theorem powerChars_injective {power power' : Option (Bool × List Char)}
    (h : powerChars power = powerChars power') : power = power' := by
  rcases power with _ | ⟨neg, ds⟩ <;> rcases power' with _ | ⟨neg', ds'⟩
  · rfl
  · cases h
  · cases h
  · simp only [powerChars, Option.elim_some, List.cons.injEq, true_and] at h
    obtain ⟨hsign, rfl⟩ := h
    have hneg : neg = neg' := by cases neg <;> cases neg' <;> simp_all
    rw [hneg]

/-- After the whole digits comes a point or the power, and their first characters differ. -/
theorem pointChars_append_injective {fraction fraction' : Option (List Char)}
    {power power' : Option (Bool × List Char)}
    (hds : ∀ ds ∈ fraction, ∀ c ∈ ds, c.isDigit) (hds' : ∀ ds ∈ fraction', ∀ c ∈ ds, c.isDigit)
    (h : pointChars fraction ++ powerChars power = pointChars fraction' ++ powerChars power') :
    fraction = fraction' ∧ power = power' := by
  cases fraction with
  | none =>
    cases fraction' with
    | none => exact ⟨rfl, powerChars_injective h⟩
    | some ds' => cases power <;> cases h
  | some ds =>
    cases fraction' with
    | none => cases power' <;> cases h
    | some ds' =>
      simp only [pointChars, Option.elim_some, List.cons_append, List.cons.injEq, true_and] at h
      obtain ⟨rfl, hpower⟩ := append_inj_of_stops (hds ds rfl) (hds' ds' rfl)
        (stops_powerChars power) (stops_powerChars power') h
      exact ⟨rfl, powerChars_injective hpower⟩

theorem unsigned_ne_minus (n : Numeral) (cs : List Char) :
    n.whole ++ (pointChars n.fraction ++ powerChars n.power) ≠ '-' :: cs := by
  intro h
  cases hwhole : n.whole with
  | nil =>
    rw [hwhole, List.nil_append] at h
    rcases n with ⟨_, _, _ | _, _ | _⟩ <;> cases h
  | cons d ds =>
    rw [hwhole, List.cons_append, List.cons.injEq] at h
    have hdigit := n.whole_digits d (by rw [hwhole]; exact List.mem_cons_self)
    rw [h.1] at hdigit
    cases hdigit

/-- A text can be read in one way only. -/
theorem eq_of_text_eq {n n' : Numeral} (h : n.text = n'.text) : n = n' := by
  have hchars := String.ofList_injective h
  have hneg : n.negative = n'.negative := by
    cases hn : n.negative <;> cases hn' : n'.negative
    · rfl
    · rw [hn, hn'] at hchars
      exact absurd hchars (unsigned_ne_minus n _)
    · rw [hn, hn'] at hchars
      exact absurd hchars.symm (unsigned_ne_minus n' _)
    · rfl
  rw [hneg] at hchars
  obtain ⟨hwhole, hrest⟩ := append_inj_of_stops n.whole_digits n'.whole_digits
    (stops_pointChars_append _ _) (stops_pointChars_append _ _) (List.append_cancel_left hchars)
  obtain ⟨hfraction, hpower⟩ :=
    pointChars_append_injective n.fraction_digits n'.fraction_digits hrest
  exact Numeral.ext hneg hwhole hfraction hpower

end Numeral

namespace Decimal

open Numeral

theorem toList_pushn (text : String) (c : Char) (n : ℕ) :
    (text.pushn c n).toList = text.toList ++ List.replicate n c := by
  rw [String.pushn_eq_repeat_push]
  induction n with
  | zero => simp [Nat.repeat]
  | succ n ih => simp [Nat.repeat, ih, List.replicate_succ']

theorem toDigits_digits (n : ℕ) : ∀ c ∈ Nat.toDigits 10 n, c.isDigit :=
  fun _ hc => Nat.isDigit_of_mem_toDigits (by decide) (by decide) hc

theorem padded_toList (width n : ℕ) : (padded width n).toList =
    List.replicate (width - (Nat.toDigits 10 n).length) '0' ++ Nat.toDigits 10 n := by
  have hdigits : (toString n).toList = Nat.toDigits 10 n := Nat.toList_repr
  rw [padded, String.toList_append, toList_pushn, ← String.length_toList, hdigits]
  rfl

theorem digitsValue_padded (width n : ℕ) : digitsValue (padded width n).toList = n := by
  simp [padded_toList, digitsValue, Nat.ofDigitChars_append, Nat.ofDigitChars_replicate_zero]

theorem padded_digits (width n : ℕ) : ∀ c ∈ (padded width n).toList, c.isDigit := by
  intro c hc
  rw [padded_toList, List.mem_append] at hc
  obtain hc | hc := hc
  · rw [List.eq_of_mem_replicate hc]
    rfl
  · exact toDigits_digits n c hc

theorem length_padded {width n : ℕ} (hwidth : 0 < width) (hn : n < 10 ^ width) :
    (padded width n).toList.length = width := by
  have hlen := (Nat.length_toDigits_le_iff (by decide) hwidth).mpr hn
  rw [padded_toList, List.length_append, List.length_replicate]
  omega

theorem le_length_padded (width n : ℕ) : width ≤ (padded width n).toList.length := by
  rw [padded_toList, List.length_append, List.length_replicate]
  omega

/-- The digits without the zeros at their end, if any are left. -/
def trimmed (ds : List Char) : Option (List Char) :=
  if dropEnd '0' ds = [] then none else some (dropEnd '0' ds)

theorem dropEnd_eq_rdropWhile (c : Char) (cs : List Char) :
    dropEnd c cs = cs.rdropWhile (· == c) :=
  rfl

theorem exists_append_replicate (c : Char) (cs : List Char) :
    ∃ k, cs = dropEnd c cs ++ List.replicate k c := by
  refine ⟨(cs.rtakeWhile (· == c)).length, ?_⟩
  have hrun : cs.rtakeWhile (· == c) = List.replicate (cs.rtakeWhile (· == c)).length c :=
    List.eq_replicate_of_mem fun d hd => by simpa using List.mem_rtakeWhile_imp hd
  rw [← hrun, dropEnd_eq_rdropWhile, List.rdropWhile_append_rtakeWhile]

theorem fractionValue_trimmed (ds : List Char) :
    fractionValue (trimmed ds) = digitsValue ds / 10 ^ ds.length := by
  obtain ⟨k, hk⟩ := exists_append_replicate '0' ds
  have hvalue : digitsValue ds = digitsValue (dropEnd '0' ds) * 10 ^ k := by
    conv_lhs => rw [hk]
    rw [digitsValue, Nat.ofDigitChars_append, Nat.ofDigitChars_replicate_zero, Nat.mul_comm]
    rfl
  have hlen : ds.length = (dropEnd '0' ds).length + k := by
    conv_lhs => rw [hk]
    rw [List.length_append, List.length_replicate]
  have hshort : (digitsValue ds : ℚ) / 10 ^ ds.length =
      digitsValue (dropEnd '0' ds) / 10 ^ (dropEnd '0' ds).length := by
    rw [hvalue, hlen, pow_add, Nat.cast_mul, Nat.cast_pow, Nat.cast_ofNat,
      mul_div_mul_right _ _ (pow_ne_zero k (by norm_num))]
  rw [hshort, trimmed]
  split
  · rename_i hnil
    rw [hnil]
    simp [fractionValue, digitsValue]
  · rfl

theorem trimmed_getLast {ds fraction : List Char} (h : fraction ∈ trimmed ds) :
    ∃ d, fraction.getLast? = some d ∧ d ≠ '0' := by
  unfold trimmed at h
  split at h
  · cases h
  · rename_i hne
    cases h
    refine ⟨_, List.getLast?_eq_some_getLast hne, fun hzero => ?_⟩
    exact List.rdropWhile_last_not (· == '0') ds hne (beq_iff_eq.mpr hzero)

theorem trimmed_digits {ds : List Char} (hds : ∀ c ∈ ds, c.isDigit) :
    ∀ fraction ∈ trimmed ds, ∀ c ∈ fraction, c.isDigit := by
  intro fraction h c hc
  unfold trimmed at h
  split at h
  · cases h
  · cases h
    exact hds c ((List.rdropWhile_prefix (· == '0') ds).subset hc)

theorem trimFraction_digits {text : String} (h : ∀ c ∈ text.toList, c.isDigit) :
    trimFraction text = text := by
  unfold trimFraction
  rw [if_neg]
  intro hpoint
  cases h '.' (List.contains_iff_mem.mp hpoint)

theorem dropEnd_of_not_mem {c : Char} {cs : List Char} (h : c ∉ cs) : dropEnd c cs = cs := by
  rw [dropEnd_eq_rdropWhile, List.rdropWhile_eq_self_iff]
  intro hne hlast
  exact h (beq_iff_eq.mp hlast ▸ List.getLast_mem hne)

theorem dropEnd_append (c : Char) (cs ds : List Char) : dropEnd c (cs ++ ds) =
    if dropEnd c ds = [] then dropEnd c cs else cs ++ dropEnd c ds := by
  unfold dropEnd
  rw [List.reverse_append, List.dropWhile_append]
  split <;> rename_i hrun
  · rw [if_pos (by simpa using hrun)]
  · rw [if_neg (by simpa using hrun), List.reverse_append, List.reverse_reverse]

theorem trimFraction_toList {text : String} {whole ds : List Char}
    (htext : text.toList = whole ++ ['.'] ++ ds) (hwhole : ∀ c ∈ whole, c.isDigit)
    (hds : ∀ c ∈ ds, c.isDigit) :
    (trimFraction text).toList = whole ++ pointChars (trimmed ds) := by
  have hpoint : text.toList.contains '.' = true := by simp [htext]
  have hwhole' : '.' ∉ whole := fun h => by cases hwhole _ h
  have hds' : '.' ∉ dropEnd '0' ds := fun h => by
    cases hds _ ((List.rdropWhile_prefix (· == '0') ds).subset h)
  rw [trimFraction, if_pos hpoint, String.toList_ofList, htext, dropEnd_append, trimmed]
  split
  · rw [dropEnd_append, if_neg (by decide), dropEnd_append, if_pos (by decide),
      dropEnd_of_not_mem hwhole']
    exact (List.append_nil whole).symm
  · rename_i hne
    rw [dropEnd_append, dropEnd_of_not_mem hds', if_neg hne, List.append_assoc]
    rfl

theorem trimFraction_pointed (places n : ℕ) : (trimFraction (pointed places n)).toList =
    Nat.toDigits 10 (n / 10 ^ places) ++
      pointChars (trimmed (padded places (n % 10 ^ places)).toList) := by
  have hwhole : (toString (n / 10 ^ places)).toList = Nat.toDigits 10 (n / 10 ^ places) :=
    Nat.toList_repr
  have hdigits := toDigits_digits (n / 10 ^ places)
  by_cases hplaces : places = 0
  · subst hplaces
    have htext : pointed 0 n = toString (n / 10 ^ 0) := String.append_empty
    rw [trimFraction_digits (by rwa [htext, hwhole]), htext, hwhole, Nat.pow_zero, Nat.mod_one]
    exact (List.append_nil _).symm
  · refine trimFraction_toList ?_ hdigits (padded_digits places _)
    simp only [pointed, Nat.pow_eq, if_neg hplaces, String.toList_append, hwhole, List.append_assoc]
    rfl

end Decimal

namespace Numeral

open Decimal

/-- The sign of an exponent and its digits, at least two. -/
def signed (e : ℤ) : Bool × List Char :=
  (decide (e < 0), (padded 2 e.natAbs).toList)

theorem signed_digits (exponent : Option ℤ) :
    ∀ p ∈ exponent.map signed, ∀ c ∈ p.2, c.isDigit := by
  intro p hp
  obtain ⟨e, -, he⟩ := Option.map_eq_some_iff.mp hp
  rw [← he]
  simp only [signed]
  exact padded_digits 2 e.natAbs

theorem powerValue_signed (exponent : Option ℤ) :
    powerValue (exponent.map signed) = exponent.getD 0 := by
  cases exponent with
  | none => rfl
  | some e =>
    simp only [signed, powerValue, Option.map_some, Option.elim_some, digitsValue_padded,
      decide_eq_true_eq, Option.getD_some]
    split <;> omega

/-- The digits of `n` with a point before the last `places`, without zeros at the end of the
fraction, and then the exponent, if there is one. -/
@[simps]
def ofPlaces (negative : Bool) (places n : ℕ) (exponent : Option ℤ) : Numeral where
  negative := negative
  whole := Nat.toDigits 10 (n / 10 ^ places)
  fraction := trimmed (padded places (n % 10 ^ places)).toList
  power := exponent.map signed
  whole_digits := toDigits_digits (n / 10 ^ places)
  fraction_digits := trimmed_digits (padded_digits places (n % 10 ^ places))
  power_digits := signed_digits exponent

theorem value_ofPlaces (negative : Bool) (places n : ℕ) (exponent : Option ℤ) :
    (ofPlaces negative places n exponent).value =
      (if negative then -1 else 1) * (n / 10 ^ places) * 10 ^ exponent.getD 0 := by
  have hwhole : digitsValue (Nat.toDigits 10 (n / 10 ^ places)) = n / 10 ^ places :=
    Nat.ofDigitChars_ten_toDigits
  have hfraction : fractionValue (trimmed (padded places (n % 10 ^ places)).toList) =
      (n % 10 ^ places : ℕ) / 10 ^ places := by
    rw [fractionValue_trimmed, digitsValue_padded]
    obtain rfl | hpos := Nat.eq_zero_or_pos places
    · simp [Nat.mod_one]
    · rw [length_padded hpos (Nat.mod_lt _ (Nat.pow_pos (by decide)))]
  have hsplit : (n : ℚ) / 10 ^ places =
      (n / 10 ^ places : ℕ) + (n % 10 ^ places : ℕ) / 10 ^ places := by
    exact_mod_cast cast_div_eq_div_add_mod n (Nat.pow_pos (n := places) (by decide : 0 < 10))
  simp only [value, ofPlaces_negative, ofPlaces_whole, ofPlaces_fraction, ofPlaces_power,
    powerValue_signed, hwhole, hfraction, hsplit]

theorem head_toDigits {n : ℕ} (hn : 0 < n) : (Nat.toDigits 10 n).head? ≠ some '0' := by
  induction n using Nat.strongRecOn with
  | ind n ih =>
    obtain hlt | hle := Nat.lt_or_ge n 10
    · rw [Nat.toDigits_of_lt_base hlt]
      clear ih
      interval_cases n <;> decide
    · rw [Nat.toDigits_of_base_le (by decide) hle,
        List.head?_append_of_ne_nil _ Nat.toDigits_ne_nil]
      exact ih (n / 10) (by omega) (by omega)

theorem head_padded {width n : ℕ} (hwidth : 0 < width)
    (h : width < (padded width n).toList.length) : (padded width n).toList.head? ≠ some '0' := by
  have hn : 10 ^ width ≤ n := by
    by_contra hlt
    rw [length_padded hwidth (Nat.lt_of_not_le hlt)] at h
    exact Nat.lt_irrefl width h
  have hlen : width < (Nat.toDigits 10 n).length := by
    by_contra hle
    exact absurd ((Nat.length_toDigits_le_iff (by decide) hwidth).mp (Nat.le_of_not_lt hle))
      (Nat.not_lt.mpr hn)
  rw [padded_toList, Nat.sub_eq_zero_of_le hlen.le]
  exact head_toDigits (Nat.lt_of_lt_of_le (Nat.pow_pos (by decide)) hn)

/-- No zero stands before another digit of the whole part or makes the exponent longer than two
digits, and none ends the fraction, which is not empty. -/
structure Tidy (n : Numeral) : Prop where
  whole_ne_nil : n.whole ≠ []
  whole_head : n.whole.head? = some '0' → n.whole = ['0']
  fraction_last : ∀ ds ∈ n.fraction, ∃ d, ds.getLast? = some d ∧ d ≠ '0'
  power_head : ∀ p ∈ n.power, 2 < p.2.length → p.2.head? ≠ some '0'

theorem tidy_ofPlaces (negative : Bool) (places n : ℕ) (exponent : Option ℤ) :
    (ofPlaces negative places n exponent).Tidy where
  whole_ne_nil := Nat.toDigits_ne_nil
  whole_head := by
    rw [ofPlaces_whole]
    obtain hzero | hpos := Nat.eq_zero_or_pos (n / 10 ^ places)
    · intro _
      rw [hzero, Nat.toDigits_zero]
    · intro h
      exact absurd h (head_toDigits hpos)
  fraction_last := by
    rw [ofPlaces_fraction]
    exact fun _ => trimmed_getLast
  power_head := by
    rw [ofPlaces_power]
    intro p hp
    obtain ⟨e, -, he⟩ := Option.map_eq_some_iff.mp hp
    rw [← he]
    simp only [signed]
    exact head_padded (by decide)

end Numeral

end Semant
