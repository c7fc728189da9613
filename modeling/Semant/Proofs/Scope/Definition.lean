import Mathlib.Data.List.Induction
import Semant.Proofs.Scope.Growth
import Semant.Proofs.TypeEquality

/-! What a new definition changes in the answers of a scope, and what an answer says about the
definitions that it was made from. -/

namespace Semant

theorem ParamType.beq_comm (a b : ParamType) : (a == b) = (b == a) := by
  cases a with
  | template => cases b <;> rfl
  | concrete ty =>
    cases b with
    | template => rfl
    | concrete ty' => exact BEq.comm (a := ty) (b := ty')

theorem FuncSymbol.params_beq_comm (as bs : List ParamType) : (as == bs) = (bs == as) := by
  induction as generalizing bs with
  | nil => cases bs <;> rfl
  | cons a as ih =>
    cases bs with
    | nil => rfl
    | cons b bs =>
      rw [List.cons_beq_cons, List.cons_beq_cons, ParamType.beq_comm a b, ih bs]

theorem FuncSymbol.sameSignature_comm (f g : FuncSymbol) :
    f.sameSignature g = g.sameSignature f := by
  simp only [sameSignature, BEq.comm (a := f.name), params_beq_comm f.params]

theorem FuncSymbol.name_of_sameSignature {f g : FuncSymbol} (h : f.sameSignature g) :
    f.name = g.name := by
  simp only [sameSignature, Bool.and_eq_true, beq_iff_eq] at h
  exact h.1

namespace Scope

variable (σ : Scope)

theorem overloads_append (f : FuncSymbol) (name : String) :
    { σ with functions := σ.functions ++ [f] }.overloads name =
      σ.overloads name ++ if f.name = name then [⟨σ.functions.length, f⟩] else [] := by
  simp only [overloads, List.zipIdx_append, List.filterMap_append]
  by_cases hn : f.name = name <;> simp [hn]

theorem symbolOf?_append (f : FuncSymbol) (definition : DefId) :
    { σ with functions := σ.functions ++ [f] }.symbolOf? definition =
      if f.definition = definition then some σ.functions.length else σ.symbolOf? definition := by
  simp only [symbolOf?, List.zipIdx_append, List.reverse_append]
  by_cases hd : f.definition = definition <;> simp [hd]

theorem lookupClass?_append (c : ClassSymbol) (name : String) :
    { σ with classes := σ.classes ++ [c] }.lookupClass? name =
      (σ.lookupClass? name).or (if c.name = name then some σ.classes.length else none) := by
  simp only [lookupClass?, List.findIdx?_append]
  by_cases hn : c.name = name <;> simp [hn]

variable {σ}

theorem symbolOf?_eq_none_iff {definition : DefId} :
    σ.symbolOf? definition = none ↔ ∀ f ∈ σ.functions, f.definition ≠ definition := by
  simp only [symbolOf?, Option.map_eq_none_iff, List.find?_eq_none, List.mem_reverse, Prod.forall,
    beq_iff_eq]
  constructor
  · intro h f hf
    obtain ⟨id, hid⟩ := List.getElem?_of_mem hf
    exact h f id (List.mem_zipIdx_iff_getElem?.mpr hid)
  · intro h f id hid
    exact h f (List.mem_of_getElem? (List.mem_zipIdx_iff_getElem?.mp hid))

theorem getElem?_concat {α : Type} {as : List α} {a b : α} {i : Nat} :
    (as ++ [a])[i]? = some b ↔ as[i]? = some b ∨ i = as.length ∧ b = a := by
  rcases Nat.lt_trichotomy i as.length with hlt | heq | hgt
  · rw [List.getElem?_append_left hlt]
    simp [Nat.ne_of_lt hlt]
  · subst heq
    simp [eq_comm]
  · have hne : i ≠ as.length := Nat.ne_of_gt hgt
    rw [List.getElem?_eq_none (by simp; omega), List.getElem?_eq_none (Nat.le_of_lt hgt)]
    simp [hne]

/-- A definition leads to the last of its symbols. -/
theorem symbolOf?_eq_some_iff {definition : DefId} {id : SymbolId} :
    σ.symbolOf? definition = some id ↔
      (∃ f, σ.functions[id]? = some f ∧ f.definition = definition) ∧
        ∀ later g, σ.functions[later]? = some g → g.definition = definition → later ≤ id := by
  obtain ⟨fs, cs⟩ := σ
  induction fs using List.reverseRecOn with
  | nil => simp [symbolOf?]
  | append_singleton fs f ih =>
    have hstep := symbolOf?_append ⟨fs, cs⟩ f definition
    simp only at hstep ih ⊢
    rw [hstep]
    split
    next hd =>
      constructor
      · rintro ⟨⟩
        refine ⟨⟨f, getElem?_concat.mpr (.inr ⟨rfl, rfl⟩), hd⟩, fun later g hg _ => ?_⟩
        have hlt := (List.getElem?_eq_some_iff.mp hg).1
        rw [List.length_append, List.length_singleton] at hlt
        exact Nat.le_of_lt_succ hlt
      · rintro ⟨⟨g, hg, -⟩, hlast⟩
        have hlt := (List.getElem?_eq_some_iff.mp hg).1
        have hle := hlast fs.length f (getElem?_concat.mpr (.inr ⟨rfl, rfl⟩)) hd
        rw [List.length_append, List.length_singleton] at hlt
        exact congrArg some (Nat.le_antisymm hle (Nat.le_of_lt_succ hlt))
    next hd =>
      -- the new symbol is of another definition
      have hold : ∀ (i : Nat) (g : FuncSymbol), g.definition = definition →
          ((fs ++ [f])[i]? = some g ↔ fs[i]? = some g) := by
        intro i g hg
        rw [getElem?_concat, or_iff_left]
        rintro ⟨-, rfl⟩
        exact hd hg
      rw [ih]
      constructor
      · rintro ⟨⟨g, hg, hgd⟩, hlast⟩
        exact ⟨⟨g, (hold id g hgd).mpr hg, hgd⟩,
          fun later g hg hgd => hlast later g ((hold later g hgd).mp hg) hgd⟩
      · rintro ⟨⟨g, hg, hgd⟩, hlast⟩
        exact ⟨⟨g, (hold id g hgd).mp hg, hgd⟩,
          fun later g hg hgd => hlast later g ((hold later g hgd).mpr hg) hgd⟩

theorem lookupClass?_eq_some_iff (h : (σ.classes.map ClassSymbol.name).Nodup) {name : String}
    {id : ClassId} :
    σ.lookupClass? name = some id ↔ ∃ c, σ.classes[id]? = some c ∧ c.name = name := by
  simp only [lookupClass?, List.findIdx?_eq_some_iff_getElem]
  constructor
  · rintro ⟨hid, hname, -⟩
    exact ⟨_, List.getElem?_eq_getElem hid, eq_of_beq hname⟩
  · rintro ⟨c, hc, rfl⟩
    obtain ⟨hid, rfl⟩ := List.getElem?_eq_some_iff.mp hc
    refine ⟨hid, beq_self_eq_true _, fun j hj hname => ?_⟩
    have hj' : j < (σ.classes.map ClassSymbol.name).length := by simpa using Nat.lt_trans hj hid
    have hid' : id < (σ.classes.map ClassSymbol.name).length := by simpa using hid
    have hne := List.pairwise_iff_getElem.mp h j id hj' hid' hj
    simp only [List.getElem_map] at hne
    exact hne (eq_of_beq hname)

/-- Functions of one signature have one name, so a conflict shows among the overloads. -/
theorem find?_overloads (σ : Scope) (g : FuncSymbol) :
    ((σ.overloads g.name).find? (·.symbol.sameSignature g)).map Overload.symbol =
      σ.functions.find? (·.sameSignature g) := by
  obtain ⟨fs, cs⟩ := σ
  induction fs using List.reverseRecOn with
  | nil => rfl
  | append_singleton fs f ih =>
    have hstep := overloads_append ⟨fs, cs⟩ f g.name
    simp only at hstep ih ⊢
    rw [hstep, List.find?_append, List.find?_append, Option.map_or, ih]
    congr 1
    split
    next hn => cases hs : f.sameSignature g <;> simp [hs]
    next hn =>
      have hs : f.sameSignature g = false :=
        Bool.eq_false_iff.mpr fun hs => hn (FuncSymbol.name_of_sameSignature hs)
      simp [hs]

theorem Grows.symbolOf? {τ : Scope} (h : σ.Grows τ) (definition : DefId) :
    τ.symbolOf? definition = σ.symbolOf? definition := by
  ext id
  rw [symbolOf?_eq_some_iff, symbolOf?_eq_some_iff]
  constructor
  · rintro ⟨⟨g, hg, hgd⟩, hlast⟩
    obtain ⟨f, hf, hfg⟩ := h.earlier_function hg
    refine ⟨⟨f, hf, hfg.definition ▸ hgd⟩, fun later f' hf' hd => ?_⟩
    obtain ⟨g', hg', hfg'⟩ := h.function hf'
    exact hlast later g' hg' (hfg'.definition.trans hd)
  · rintro ⟨⟨f, hf, hfd⟩, hlast⟩
    obtain ⟨g, hg, hfg⟩ := h.function hf
    refine ⟨⟨g, hg, hfg.definition.trans hfd⟩, fun later g' hg' hd => ?_⟩
    obtain ⟨f', hf', hfg'⟩ := h.earlier_function hg'
    exact hlast later f' hf' (hfg'.definition ▸ hd)

theorem Grows.overloads_id {τ : Scope} (h : σ.Grows τ) (name : String) :
    (τ.overloads name).map Overload.id = (σ.overloads name).map Overload.id := by
  have hm := h.overloads name []
  generalize σ.overloads name = os at hm ⊢
  generalize τ.overloads name = ps at hm ⊢
  induction hm with
  | nil => rfl
  | cons hop _ ih => simp only [List.map_cons, ih, hop.1, id]

theorem Grows.signatures {τ : Scope} (h : σ.Grows τ)
    (hnone : σ.functions.Pairwise fun f g => f.sameSignature g = false) :
    τ.functions.Pairwise fun f g => f.sameSignature g = false := by
  refine List.pairwise_iff_getElem.mpr fun i j hi hj hij => ?_
  obtain ⟨f, hf, hfi⟩ := h.earlier_function (List.getElem?_eq_getElem hi)
  obtain ⟨g, hg, hgj⟩ := h.earlier_function (List.getElem?_eq_getElem hj)
  obtain ⟨hi', rfl⟩ := List.getElem?_eq_some_iff.mp hf
  obtain ⟨hj', rfl⟩ := List.getElem?_eq_some_iff.mp hg
  have hsame := List.pairwise_iff_getElem.mp hnone i j hi' hj' hij
  simp only [FuncSymbol.sameSignature, hfi.name, hfi.params, hgj.name, hgj.params]
  exact hsame

end Scope

end Semant
