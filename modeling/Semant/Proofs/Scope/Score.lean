import Mathlib.Algebra.BigOperators.Ring.List
import Mathlib.Algebra.GroupWithZero.Nat
import Semant.Proofs.Scope.Overload

/-! What the score of a function says about a call. It is positive if the function takes the
arguments, and then it counts the concrete parameters, by powers of two, up to the largest score. -/

namespace Semant

namespace FuncSymbol

/-- There is one argument for each parameter, and it has the type of a concrete one. -/
structure Accepts (f : FuncSymbol) (args : List Ty) : Prop where
  arity : f.params.length = args.length
  concrete : ∀ (i : Nat) (ty arg : Ty), f.params[i]? = some (.concrete ty) → args[i]? = some arg →
    ty == arg

/-- The number of concrete parameters. -/
def specificity (f : FuncSymbol) : Nat :=
  f.params.countP fun param => !param.isTemplate

theorem specificity_of_plain {f : FuncSymbol} (h : f.isTemplate = false) :
    f.specificity = f.params.length := by
  refine List.countP_eq_length.mpr fun param hparam => ?_
  simpa using List.any_eq_false.mp h param hparam

theorem specificity_of_template {f : FuncSymbol} (h : f.isTemplate = true) :
    f.specificity < f.params.length := by
  have htemplates : 0 < f.params.countP ParamType.isTemplate :=
    List.countP_pos_iff.mpr (List.any_eq_true.mp h)
  have hsum := f.params.length_eq_countP_add_countP ParamType.isTemplate
  have hrest : f.specificity = f.params.countP fun param => ¬ param.isTemplate = true :=
    List.countP_congr fun param _ => by simp
  omega

/-- The product of the factors of all arguments, however large. -/
def factors (params : List ParamType) (args : List Ty) : Nat :=
  ((params.zip args).map fun pair => pair.1.factor pair.2).prod

end FuncSymbol

/-- Cutting off before a factor is the same as after it. -/
theorem min_mul_min (product factor cap : Nat) :
    min (min product cap * factor) cap = min (product * factor) cap := by
  rcases Nat.eq_zero_or_pos factor with rfl | hfactor
  · rw [Nat.mul_zero, Nat.mul_zero]
  rcases Nat.le_total product cap with hle | hge
  · rw [Nat.min_eq_left hle]
  · have hcap : cap ≤ cap * factor := Nat.le_mul_of_pos_right cap hfactor
    have hproduct : cap ≤ product * factor := hcap.trans (Nat.mul_le_mul_right factor hge)
    rw [Nat.min_eq_right hge, Nat.min_eq_right hcap, Nat.min_eq_right hproduct]

theorem foldl_min_mul {α : Type} (factor : α → Nat) (cap : Nat) (as : List α) {start : Nat}
    (hstart : start ≤ cap) :
    as.foldl (fun product a => min (product * factor a) cap) start =
      min (start * (as.map factor).prod) cap := by
  induction as generalizing start with
  | nil => simp [Nat.min_eq_left hstart]
  | cons a as ih =>
    rw [List.foldl_cons, ih (Nat.min_le_right _ _), min_mul_min, List.map_cons, List.prod_cons,
      Nat.mul_assoc]

namespace FuncSymbol

theorem score_eq_factors {f : FuncSymbol} {args : List Ty} (h : f.params.length = args.length) :
    f.score args = min (factors f.params args) maxScore := by
  have hone : 1 ≤ maxScore := by decide
  rw [score, if_pos h, factors, ← Nat.one_mul (List.prod _)]
  exact foldl_min_mul (fun pair => pair.1.factor pair.2) maxScore (f.params.zip args) hone

/-- Only concrete parameters contribute to the factors of a call that is taken. -/
theorem factors_eq_pow {params : List ParamType} {args : List Ty}
    (hlen : params.length = args.length)
    (h : ∀ (i : Nat) (ty arg : Ty), params[i]? = some (.concrete ty) → args[i]? = some arg →
      ty == arg) :
    factors params args = 2 ^ params.countP fun param => !param.isTemplate := by
  induction params generalizing args with
  | nil => rfl
  | cons param params ih =>
    cases args with
    | nil => cases hlen
    | cons arg args =>
      have hrest : factors params args = _ :=
        ih (Nat.succ.inj hlen) fun i ty other hty harg => h (i + 1) ty other hty harg
      have hcons : factors (param :: params) (arg :: args) =
          param.factor arg * factors params args := List.prod_cons
      rw [hcons, hrest]
      cases param with
      | template => simp [ParamType.factor, ParamType.isTemplate]
      | concrete ty =>
        have hty : (ty == arg) = true := h 0 ty arg rfl rfl
        simp [ParamType.factor, ParamType.isTemplate, hty, Nat.pow_succ, Nat.mul_comm]

/-- One concrete parameter of another type rules a function out. -/
theorem factors_eq_zero {params : List ParamType} {args : List Ty} {i : Nat} {ty arg : Ty}
    (hty : params[i]? = some (.concrete ty)) (harg : args[i]? = some arg)
    (h : (ty == arg) = false) : factors params args = 0 := by
  have hmem : (.concrete ty, arg) ∈ params.zip args := by
    refine List.mem_of_getElem? (i := i) ?_
    rw [List.getElem?_zip_eq_some]
    exact ⟨hty, harg⟩
  have hzero : ParamType.factor arg (.concrete ty) = 0 := by simp [ParamType.factor, h]
  have hzero_mem := List.mem_map_of_mem (f := fun pair => pair.1.factor pair.2) hmem
  rw [hzero] at hzero_mem
  exact List.prod_eq_zero hzero_mem

theorem Accepts.score_eq {f : FuncSymbol} {args : List Ty} (h : f.Accepts args) :
    f.score args = min (2 ^ f.specificity) maxScore := by
  rw [score_eq_factors h.arity, factors_eq_pow h.arity h.concrete, specificity]

theorem score_pos_iff {f : FuncSymbol} {args : List Ty} : 0 < f.score args ↔ f.Accepts args := by
  constructor
  · intro hpos
    have hlen : f.params.length = args.length := by
      by_contra hlen
      rw [score, if_neg hlen] at hpos
      exact Nat.lt_irrefl 0 hpos
    refine ⟨hlen, fun i ty arg hty harg => ?_⟩
    by_contra hne
    rw [score_eq_factors hlen, factors_eq_zero hty harg (by simpa using hne), Nat.zero_min] at hpos
    exact Nat.lt_irrefl 0 hpos
  · intro h
    rw [h.score_eq]
    exact Nat.lt_min.mpr ⟨Nat.two_pow_pos _, by decide⟩

/-- Scores tell apart how specific functions are, as long as the lesser one is not cut off. -/
theorem Accepts.score_lt {f g : FuncSymbol} {args : List Ty} (hf : f.Accepts args)
    (hg : g.Accepts args) (h : f.specificity < g.specificity) (hcap : f.specificity < 64) :
    f.score args < g.score args := by
  have hpow : 2 ^ f.specificity < 2 ^ g.specificity := Nat.pow_lt_pow_right (by decide) h
  have hhalf : 2 ^ f.specificity ≤ 2 ^ 63 := Nat.pow_le_pow_right (by decide) (by omega)
  have hmax : 2 ^ f.specificity < maxScore := hhalf.trans_lt (by decide)
  rw [hf.score_eq, hg.score_eq, Nat.min_eq_left hmax.le]
  exact Nat.lt_min.mpr ⟨hpow, hmax⟩

end FuncSymbol

end Semant
