import Mathlib.Data.List.Forall2
import Semant.Scope.Basic

/-! The overloads of a name and the best of them. Scopes whose overloads correspond one by one,
with equal scores, choose corresponding overloads. -/

namespace Semant

theorem FuncSymbol.score_congr {f g : FuncSymbol} (h : f.params = g.params) (args : List Ty) :
    f.score args = g.score args := by
  simp only [score, h]

namespace Scope

theorem mem_overloads {scope : Scope} {name : String} {o : Overload} :
    o ∈ scope.overloads name ↔ scope.functions[o.id]? = some o.symbol ∧ o.symbol.name = name := by
  simp only [overloads, List.mem_filterMap, Prod.exists, List.mem_zipIdx_iff_getElem?]
  constructor
  · rintro ⟨symbol, id, hs, h⟩
    split at h
    · rename_i hn
      cases h
      exact ⟨hs, eq_of_beq hn⟩
    · cases h
  · rintro ⟨hs, hn⟩
    exact ⟨o.symbol, o.id, hs, by simp [hn]⟩

theorem pairwise_overloads (σ : Scope) (name : String) :
    (σ.overloads name).Pairwise (·.id < ·.id) := by
  have hzip : ∀ (fs : List FuncSymbol) (k : Nat), (fs.zipIdx k).Pairwise (·.2 < ·.2) := by
    intro fs
    induction fs with
    | nil => exact fun _ => .nil
    | cons f fs ih =>
      intro k
      rw [List.zipIdx_cons]
      exact List.pairwise_cons.mpr ⟨fun p hp => List.le_snd_of_mem_zipIdx hp, ih (k + 1)⟩
  refine List.pairwise_filterMap.mpr ((hzip σ.functions 0).imp ?_)
  rintro ⟨f, i⟩ ⟨g, j⟩ hij o ho p hp
  simp only [Option.ite_none_right_eq_some, Option.some.injEq] at ho hp
  obtain ⟨-, rfl⟩ := ho
  obtain ⟨-, rfl⟩ := hp
  exact hij

theorem foldl_better_mem {args : List Ty} {os : List Overload} {best : Option Overload}
    {o : Overload} (h : os.foldl (better args) best = some o) : o ∈ os ∨ best = some o := by
  induction os generalizing best with
  | nil => exact .inr h
  | cons candidate os ih =>
    rcases ih h with hm | hb
    · exact .inl (List.mem_cons_of_mem _ hm)
    · simp only [better] at hb
      split at hb
      · cases hb
        exact .inl List.mem_cons_self
      · exact .inr hb

theorem bestOverload?_mem {scope : Scope} {name : String} {args : List Ty} {o : Overload}
    (h : scope.bestOverload? name args = some o) :
    scope.functions[o.id]? = some o.symbol ∧ o.symbol.name = name := by
  rcases foldl_better_mem h with hm | hn
  · exact mem_overloads.mp hm
  · cases hn

theorem resolve?_eq_some {scope : Scope} {name : String} {args : List Ty} {id : SymbolId} :
    scope.resolve? name args = some id ↔ ∃ f, scope.bestOverload? name args = some ⟨id, f⟩ := by
  simp only [resolve?, Option.map_eq_some_iff]
  constructor
  · rintro ⟨o, ho, rfl⟩
    exact ⟨o.symbol, ho⟩
  · rintro ⟨f, hf⟩
    exact ⟨_, hf, rfl⟩

/-- Both overloads take the arguments equally well, and one has the number of the other. -/
def Matching (number : SymbolId → SymbolId) (args args' : List Ty) (o p : Overload) : Prop :=
  p.id = number o.id ∧ p.symbol.score args' = o.symbol.score args

theorem better_matching {number : SymbolId → SymbolId} {args args' : List Ty}
    {best best' : Option Overload} {o p : Overload}
    (hb : Option.Rel (Matching number args args') best best')
    (h : Matching number args args' o p) :
    Option.Rel (Matching number args args') (better args best o) (better args' best' p) := by
  have hs : best'.elim 0 (·.symbol.score args') = best.elim 0 (·.symbol.score args) := by
    cases hb with
    | none => rfl
    | some hm => exact hm.2
  simp only [better, hs, h.2]
  split
  · exact .some h
  · exact hb

theorem foldl_better_matching {number : SymbolId → SymbolId} {args args' : List Ty}
    {os ps : List Overload} (h : List.Forall₂ (Matching number args args') os ps)
    {best best' : Option Overload} (hb : Option.Rel (Matching number args args') best best') :
    Option.Rel (Matching number args args') (os.foldl (better args) best)
      (ps.foldl (better args') best') := by
  induction h generalizing best best' with
  | nil => exact hb
  | cons h _ ih => exact ih (better_matching hb h)

theorem resolve?_matching {number : SymbolId → SymbolId} {σ τ : Scope} {name : String}
    {args args' : List Ty}
    (h : List.Forall₂ (Matching number args args') (σ.overloads name) (τ.overloads name)) :
    τ.resolve? name args' = (σ.resolve? name args).map number := by
  have hr := foldl_better_matching h .none
  simp only [resolve?, bestOverload?]
  generalize (σ.overloads name).foldl (better args) none = best at hr ⊢
  generalize (τ.overloads name).foldl (better args') none = best' at hr ⊢
  cases hr with
  | none => rfl
  | some hm => simp [hm.1]

end Scope

end Semant
