import Mathlib.Data.List.Induction
import Semant.Proofs.Scope.Score

/-! The overload that a call goes to. The scan over the overloads of a name ends at the first of
those with the greatest score, so a more specific overload is preferred as far as scores tell. -/

namespace Semant

/-- A scan over `os` has `best` at its end: all before it score less, and none after it more. -/
def Scope.Leads (args : List Ty) (os : List Overload) : Option Overload → Prop
  | none => ∀ p ∈ os, p.symbol.score args = 0
  | some o => 0 < o.symbol.score args ∧ ∃ before after, os = before ++ o :: after ∧
      (∀ p ∈ before, p.symbol.score args < o.symbol.score args) ∧
      ∀ p ∈ after, p.symbol.score args ≤ o.symbol.score args

/-- No overload of the name scores more than `o`, and the earlier ones score less. -/
structure Scope.IsBest (σ : Scope) (name : String) (args : List Ty) (o : Overload) : Prop where
  mem : o ∈ σ.overloads name
  pos : 0 < o.symbol.score args
  most : ∀ p ∈ σ.overloads name, p.symbol.score args ≤ o.symbol.score args
  first : ∀ p ∈ σ.overloads name, p.id < o.id → p.symbol.score args < o.symbol.score args

namespace Scope

variable {σ : Scope} {name : String} {args : List Ty}

theorem Leads.score_le {os : List Overload} {best : Option Overload} (h : Leads args os best) :
    ∀ p ∈ os, p.symbol.score args ≤ best.elim 0 (·.symbol.score args) := by
  intro p hp
  cases best with
  | none => exact (h p hp).le
  | some o =>
    obtain ⟨_, before, after, rfl, hbefore, hafter⟩ := h
    rcases List.mem_append.mp hp with hp | hp
    · exact (hbefore p hp).le
    · rcases List.mem_cons.mp hp with rfl | hp
      · exact Nat.le_refl _
      · exact hafter p hp

theorem Leads.better {os : List Overload} {best : Option Overload} (h : Leads args os best)
    (candidate : Overload) : Leads args (os ++ [candidate]) (better args best candidate) := by
  simp only [Scope.better]
  split
  · rename_i hlt
    refine ⟨Nat.zero_lt_of_lt hlt, os, [], rfl, fun p hp => ?_, List.forall_mem_nil _⟩
    exact (h.score_le p hp).trans_lt hlt
  · rename_i hge
    have hle := Nat.le_of_not_lt hge
    cases best with
    | none =>
      exact List.forall_mem_append.mpr
        ⟨h, List.forall_mem_singleton.mpr (Nat.le_zero.mp hle)⟩
    | some o =>
      obtain ⟨hpos, before, after, rfl, hbefore, hafter⟩ := h
      refine ⟨hpos, before, after ++ [candidate], by simp, hbefore, ?_⟩
      exact List.forall_mem_append.mpr ⟨hafter, List.forall_mem_singleton.mpr hle⟩

theorem leads_foldl (args : List Ty) (os : List Overload) :
    Leads args os (os.foldl (better args) none) := by
  induction os using List.reverseRecOn with
  | nil => exact List.forall_mem_nil _
  | append_singleton os candidate ih =>
    rw [List.foldl_append]
    exact ih.better candidate

/-- What is found first in the scan was also declared first. -/
theorem Leads.isBest {o : Overload} (h : Leads args (σ.overloads name) (some o)) :
    σ.IsBest name args o := by
  have hmost := h.score_le
  obtain ⟨hpos, before, after, heq, hbefore, _⟩ := h
  have hsorted := σ.pairwise_overloads name
  rw [heq] at hsorted
  refine ⟨by rw [heq]; simp, hpos, hmost, fun p hp hlt => ?_⟩
  rw [heq] at hp
  rcases List.mem_append.mp hp with hp | hp
  · exact hbefore p hp
  · have hle : o.id ≤ p.id := by
      rcases List.mem_cons.mp hp with rfl | hp
      · exact Nat.le_refl _
      · exact (List.rel_of_pairwise_cons (List.pairwise_append.mp hsorted).2.1 hp).le
    exact absurd hlt (Nat.not_lt_of_le hle)

theorem IsBest.unique {o p : Overload} (ho : σ.IsBest name args o) (hp : σ.IsBest name args p) :
    o = p := by
  have hid : o.id = p.id := by
    rcases Nat.lt_trichotomy o.id p.id with hlt | heq | hgt
    · exact absurd (hp.first o ho.mem hlt) (Nat.not_lt_of_le (ho.most p hp.mem))
    · exact heq
    · exact absurd (ho.first p hp.mem hgt) (Nat.not_lt_of_le (hp.most o ho.mem))
  have hsymbol := (mem_overloads.mp ho.mem).1
  rw [hid, (mem_overloads.mp hp.mem).1] at hsymbol
  obtain ⟨i, f⟩ := o
  obtain ⟨j, g⟩ := p
  cases hid
  cases hsymbol
  rfl

theorem bestOverload?_eq_none_iff : σ.bestOverload? name args = none ↔
    ∀ o ∈ σ.overloads name, o.symbol.score args = 0 := by
  have hscan := leads_foldl args (σ.overloads name)
  rw [bestOverload?]
  generalize (σ.overloads name).foldl (Scope.better args) none = best at hscan
  cases best with
  | none => exact ⟨fun _ => hscan, fun _ => rfl⟩
  | some o =>
    constructor
    · intro h
      cases h
    · intro hzero
      have hbest := hscan.isBest
      exact absurd (hzero o hbest.mem) (Nat.pos_iff_ne_zero.mp hbest.pos)

theorem bestOverload?_eq_some_iff {o : Overload} :
    σ.bestOverload? name args = some o ↔ σ.IsBest name args o := by
  have hscan := leads_foldl args (σ.overloads name)
  rw [bestOverload?]
  generalize (σ.overloads name).foldl (Scope.better args) none = best at hscan
  cases best with
  | none =>
    constructor
    · intro h
      cases h
    · intro hbest
      exact absurd (hscan o hbest.mem) (Nat.pos_iff_ne_zero.mp hbest.pos)
  | some found =>
    constructor
    · intro h
      cases h
      exact hscan.isBest
    · intro hbest
      exact congrArg some (hscan.isBest.unique hbest)

/-- A call goes to the first overload of the greatest score, and to none if all refuse it. The score
of a function that takes the arguments is the power of two for its concrete parameters, cut off at
the largest number of 64 bits. -/
theorem resolve?_best (σ : Scope) (name : String) (args : List Ty) :
    (σ.resolve? name args = none ↔ ∀ o ∈ σ.overloads name, o.symbol.score args = 0) ∧
      (∀ id, σ.resolve? name args = some id ↔ ∃ symbol, σ.IsBest name args ⟨id, symbol⟩) ∧
      ∀ f : FuncSymbol, (0 < f.score args ↔ f.Accepts args) ∧
        (f.Accepts args → f.score args = min (2 ^ f.specificity) (2 ^ 64 - 1)) := by
  refine ⟨?_, fun id => ?_, fun f => ⟨FuncSymbol.score_pos_iff, fun h => h.score_eq⟩⟩
  · rw [resolve?, Option.map_eq_none_iff]
    exact bestOverload?_eq_none_iff
  · rw [resolve?_eq_some]
    exact exists_congr fun _ => bestOverload?_eq_some_iff

theorem resolve?_ne_of_score_lt {a b : Overload} (ha : a ∈ σ.overloads name)
    (hb : b ∈ σ.overloads name) (h : b.symbol.score args < a.symbol.score args) :
    σ.resolve? name args ≠ some b.id := by
  intro hfound
  obtain ⟨symbol, hsymbol⟩ := resolve?_eq_some.mp hfound
  have hbest := bestOverload?_eq_some_iff.mp hsymbol
  have hsame := (mem_overloads.mp hb).1
  rw [(mem_overloads.mp hbest.mem).1] at hsame
  cases hsame
  exact absurd h (Nat.not_lt_of_le (hbest.most a ha))

end Scope

/-- Of two overloads that take the arguments, the less specific one is not called, wherever it is
declared, if it has less than 64 concrete parameters. So an exact match is preferred to any template
in a call with at most 64 arguments. -/
theorem Scope.resolve?_specific {σ : Scope} {name : String} {args : List Ty} {a b : Overload}
    (ha : a ∈ σ.overloads name) (hb : b ∈ σ.overloads name) (haaccepts : a.symbol.Accepts args)
    (hbaccepts : b.symbol.Accepts args) :
    (b.symbol.specificity < a.symbol.specificity → b.symbol.specificity < 64 →
      σ.resolve? name args ≠ some b.id) ∧
    (a.symbol.isTemplate = false → b.symbol.isTemplate = true → args.length ≤ 64 →
      σ.resolve? name args ≠ some b.id) := by
  have hless : b.symbol.specificity < a.symbol.specificity → b.symbol.specificity < 64 →
      σ.resolve? name args ≠ some b.id :=
    fun hlt hcap => resolve?_ne_of_score_lt ha hb (hbaccepts.score_lt haaccepts hlt hcap)
  refine ⟨hless, fun hplain htemplate hargs => ?_⟩
  have hexact := FuncSymbol.specificity_of_plain hplain
  have hpartial := FuncSymbol.specificity_of_template htemplate
  rw [haaccepts.arity] at hexact
  rw [hbaccepts.arity] at hpartial
  exact hless (hexact ▸ hpartial) (hpartial.trans_le hargs)

/-- A function of `width` parameters, of which the first `n` take integers. -/
def stretched (width n : Nat) : FuncSymbol :=
  { kind := .func, name := "f", ret := .unresolved, definition := 0, loc := {}
    params :=
      List.replicate n (.concrete (.builtin .int)) ++ List.replicate (width - n) .template }

theorem Scope.resolve?_specific_stretched :
    let σ : Scope := { functions := [stretched 64 63, stretched 64 64] }
    let args : List Ty := List.replicate 64 (.builtin .int)
    (stretched 64 63).Accepts args ∧ (stretched 64 64).Accepts args ∧
      (stretched 64 63).isTemplate = true ∧ (stretched 64 64).isTemplate = false ∧
      σ.resolve? "f" args ≠ some 0 := by
  intro σ args
  have ha : ⟨1, stretched 64 64⟩ ∈ σ.overloads "f" := mem_overloads.mpr ⟨rfl, rfl⟩
  have hb : ⟨0, stretched 64 63⟩ ∈ σ.overloads "f" := mem_overloads.mpr ⟨rfl, rfl⟩
  have haaccepts : (stretched 64 64).Accepts args :=
    FuncSymbol.score_pos_iff.mp (by decide +kernel)
  have hbaccepts : (stretched 64 63).Accepts args :=
    FuncSymbol.score_pos_iff.mp (by decide +kernel)
  have htemplate : (stretched 64 63).isTemplate = true := by decide +kernel
  have hplain : (stretched 64 64).isTemplate = false := by decide +kernel
  refine ⟨hbaccepts, haaccepts, htemplate, hplain, ?_⟩
  exact (Scope.resolve?_specific ha hb haaccepts hbaccepts).2 hplain htemplate (by decide)

/-- Scores end at 64 concrete parameters: the earlier overload is called with 65 integers, although
the later one is an exact match. -/
theorem Scope.resolve?_stretched_template :
    let args : List Ty := List.replicate 65 (.builtin .int)
    ∃ σ τ : Scope, ({} : Scope).defineFunction (stretched 65 64) = .ok (0, σ) ∧
      σ.defineFunction (stretched 65 65) = .ok (1, τ) ∧
      (⟨0, stretched 65 64⟩ ∈ τ.overloads "f" ∧ (stretched 65 64).Accepts args) ∧
      (⟨1, stretched 65 65⟩ ∈ τ.overloads "f" ∧ (stretched 65 65).Accepts args) ∧
      (stretched 65 64).specificity < (stretched 65 65).specificity ∧
      (stretched 65 64).isTemplate = true ∧ (stretched 65 65).isTemplate = false ∧
      τ.resolve? "f" args = some 0 := by
  have hfirst : ({} : Scope).defineFunction (stretched 65 64) =
      .ok (0, { functions := [stretched 65 64] }) := rfl
  have hsecond : ({ functions := [stretched 65 64] } : Scope).defineFunction (stretched 65 65) =
      .ok (1, { functions := [stretched 65 64, stretched 65 65] }) := rfl
  refine ⟨_, _, hfirst, hsecond, ⟨?_, ?_⟩, ⟨?_, ?_⟩, ?_, ?_, ?_, ?_⟩
  · exact mem_overloads.mpr ⟨rfl, rfl⟩
  · exact FuncSymbol.score_pos_iff.mp (by decide +kernel)
  · exact mem_overloads.mpr ⟨rfl, rfl⟩
  · exact FuncSymbol.score_pos_iff.mp (by decide +kernel)
  all_goals decide +kernel

end Semant
