import Semant.Proofs.Outcome
import Semant.Proofs.Scope.Overload
import Semant.Proofs.Typing.Judgment

/-! A scope grows during type resolution: return types become known and nothing else changes. What
a scope answers about classes and overloads stays, and a known return type is kept. -/

namespace Semant

open Outcome

structure FuncSymbol.Grows (f g : FuncSymbol) : Prop where
  rest : g = { f with ret := g.ret }
  ret : f.ret = .unresolved ∨ f.ret = g.ret

namespace FuncSymbol.Grows

theorem refl (f : FuncSymbol) : f.Grows f :=
  ⟨rfl, .inr rfl⟩

theorem trans {f g h : FuncSymbol} (hfg : f.Grows g) (hgh : g.Grows h) : f.Grows h := by
  constructor
  · rw [hgh.rest, hfg.rest]
  · rcases hfg.ret with hf | hf
    · exact .inl hf
    · rw [hf]
      exact hgh.ret

theorem kind {f g : FuncSymbol} (h : f.Grows g) : g.kind = f.kind := by rw [h.rest]

theorem name {f g : FuncSymbol} (h : f.Grows g) : g.name = f.name := by rw [h.rest]

theorem params {f g : FuncSymbol} (h : f.Grows g) : g.params = f.params := by rw [h.rest]

theorem definition {f g : FuncSymbol} (h : f.Grows g) : g.definition = f.definition := by
  rw [h.rest]

theorem isTemplate {f g : FuncSymbol} (h : f.Grows g) : g.isTemplate = f.isTemplate := by
  simp only [FuncSymbol.isTemplate, h.params]

theorem ret_resolved {f g : FuncSymbol} {ty : Ty} (h : f.Grows g) (hf : f.ret = .resolved ty) :
    g.ret = .resolved ty := by
  rcases h.ret with hn | he
  · rw [hf] at hn
    cases hn
  · rw [← he, hf]

end FuncSymbol.Grows

structure Scope.Grows (σ τ : Scope) : Prop where
  classes : τ.classes = σ.classes
  functions : List.Forall₂ FuncSymbol.Grows σ.functions τ.functions

namespace Scope.Grows

theorem refl (σ : Scope) : σ.Grows σ :=
  ⟨rfl, List.forall₂_same.mpr fun f _ => .refl f⟩

theorem trans {σ τ υ : Scope} (h : σ.Grows τ) (h' : τ.Grows υ) : σ.Grows υ := by
  refine ⟨h'.classes.trans h.classes, ?_⟩
  have hl := h.functions.length_eq.trans h'.functions.length_eq
  refine List.forall₂_iff_get.mpr ⟨hl, fun i hi hi' => ?_⟩
  have hm : i < τ.functions.length := h.functions.length_eq ▸ hi
  exact (h.functions.get hi hm).trans (h'.functions.get hm hi')

theorem function {σ τ : Scope} (h : σ.Grows τ) {id : SymbolId} {f : FuncSymbol}
    (hf : σ.functions[id]? = some f) : ∃ g, τ.functions[id]? = some g ∧ f.Grows g := by
  obtain ⟨hi, rfl⟩ := List.getElem?_eq_some_iff.mp hf
  have hi' : id < τ.functions.length := h.functions.length_eq ▸ hi
  exact ⟨_, List.getElem?_eq_getElem hi', h.functions.get hi hi'⟩

theorem earlier_function {σ τ : Scope} (h : σ.Grows τ) {id : SymbolId} {g : FuncSymbol}
    (hg : τ.functions[id]? = some g) : ∃ f, σ.functions[id]? = some f ∧ f.Grows g := by
  obtain ⟨hi, rfl⟩ := List.getElem?_eq_some_iff.mp hg
  have hi' : id < σ.functions.length := h.functions.length_eq ▸ hi
  exact ⟨_, List.getElem?_eq_getElem hi', h.functions.get hi' hi⟩

theorem overloads {σ τ : Scope} (h : σ.Grows τ) (name : String) (args : List Ty) :
    List.Forall₂ (Matching id args args) (σ.overloads name) (τ.overloads name) := by
  have h := h.functions
  simp only [Scope.overloads]
  generalize σ.functions = fs at h ⊢
  generalize τ.functions = gs at h ⊢
  -- the numbers of the overloads depend on where the count starts
  suffices hk : ∀ k, List.Forall₂ (Matching id args args)
      ((fs.zipIdx k).filterMap fun f => if f.1.name == name then some ⟨f.2, f.1⟩ else none)
      ((gs.zipIdx k).filterMap fun g => if g.1.name == name then some ⟨g.2, g.1⟩ else none)
      from hk 0
  induction h with
  | nil => exact fun _ => .nil
  | @cons f g fs gs hfg _ ih =>
    intro k
    simp only [List.zipIdx_cons, List.filterMap_cons, hfg.name]
    cases hn : f.name == name with
    | false => simpa using ih (k + 1)
    | true => exact .cons ⟨rfl, FuncSymbol.score_congr hfg.params args⟩ (ih (k + 1))

theorem resolve?_eq {σ τ : Scope} (h : σ.Grows τ) (name : String) (args : List Ty) :
    τ.resolve? name args = σ.resolve? name args := by
  simpa using resolve?_matching (h.overloads name args)

theorem callType {σ τ : Scope} (h : σ.Grows τ) {id : SymbolId} {ty : Ty}
    (hc : σ.CallType id ty) : τ.CallType id ty := by
  cases hc with
  | proc hf hk =>
    obtain ⟨g, hg, hfg⟩ := h.function hf
    exact .proc hg (hfg.kind.trans hk)
  | func hf hk hr =>
    obtain ⟨g, hg, hfg⟩ := h.function hf
    exact .func hg (hfg.kind.trans hk) (hfg.ret_resolved hr)

theorem lookupClass? {σ τ : Scope} (h : σ.Grows τ) : τ.lookupClass? = σ.lookupClass? := by
  funext name
  simp only [Scope.lookupClass?, h.classes]

end Scope.Grows

namespace Scope

theorem setReturnType_eq_ok {σ τ : Scope} {id : SymbolId} {ty : Ty} {f : FuncSymbol}
    (hf : σ.functions[id]? = some f) :
    σ.setReturnType id ty = .ok τ ↔ f.ret = .unresolved ∧
      τ = { σ with functions := σ.functions.set id { f with ret := .resolved ty } } := by
  simp only [setReturnType, hf, bind_eq_ok]
  cases hret : f.ret with
  | unresolved => simp [Slot.fill, eq_comm]
  | resolved => simp [Slot.fill]

theorem set_grows {σ : Scope} {id : SymbolId} {f : FuncSymbol} (hf : σ.functions[id]? = some f)
    (hret : f.ret = .unresolved) (ret : Slot Ty) :
    σ.Grows { σ with functions := σ.functions.set id { f with ret } } := by
  refine ⟨rfl, List.forall₂_iff_get.mpr ⟨by simp, fun i hi hi' => ?_⟩⟩
  obtain ⟨hid, rfl⟩ := List.getElem?_eq_some_iff.mp hf
  simp only [List.get_eq_getElem, List.getElem_set]
  split
  · subst i
    exact ⟨rfl, .inl hret⟩
  · exact .refl _

theorem symbolOf?_eq_some {σ : Scope} {definition : DefId} {id : SymbolId}
    (h : σ.symbolOf? definition = some id) :
    ∃ f, σ.functions[id]? = some f ∧ f.definition = definition := by
  obtain ⟨⟨f, _⟩, hfind, rfl⟩ := Option.map_eq_some_iff.mp h
  have hmem := List.mem_reverse.mp (List.mem_of_find?_eq_some hfind)
  have hdef := List.find?_some hfind
  exact ⟨f, List.mem_zipIdx_iff_getElem?.mp hmem, by simpa using hdef⟩

end Scope

mutual

theorem TypeExpr.resolve_congr {σ τ : Scope} (h : τ.lookupClass? = σ.lookupClass?) :
    ∀ t : TypeExpr, t.resolve τ = t.resolve σ
  | .named name args loc => by
    by_cases hb : ∀ b, args = [] → Builtin.ofName? name = some b → False
    · rw [TypeExpr.resolve.eq_2 _ _ _ _ hb, TypeExpr.resolve.eq_2 _ _ _ _ hb, h,
        TypeExpr.resolveAll_congr h args]
    · simp only [not_forall, not_false_eq_true, exists_prop, and_true] at hb
      obtain ⟨b, rfl, hb⟩ := hb
      rw [TypeExpr.resolve.eq_1 _ _ _ b hb, TypeExpr.resolve.eq_1 _ _ _ b hb]
  | .array elem _ => by simp only [TypeExpr.resolve, elem.resolve_congr h]
  | .dict key value _ => by
    simp only [TypeExpr.resolve, key.resolve_congr h, value.resolve_congr h]
  | .tuple elems _ => by simp only [TypeExpr.resolve, TypeExpr.resolveAll_congr h elems]
  | .func params none _ => by simp only [TypeExpr.resolve, TypeExpr.resolveAll_congr h params]
  | .func params (some ret) _ => by
    simp only [TypeExpr.resolve, TypeExpr.resolveAll_congr h params, ret.resolve_congr h]
  | .maybe inner _ => by simp only [TypeExpr.resolve, inner.resolve_congr h]

theorem TypeExpr.resolveAll_congr {σ τ : Scope} (h : τ.lookupClass? = σ.lookupClass?) :
    ∀ ts : List TypeExpr, TypeExpr.resolveAll τ ts = TypeExpr.resolveAll σ ts
  | [] => rfl
  | t :: ts => by
    simp only [TypeExpr.resolveAll, t.resolve_congr h, TypeExpr.resolveAll_congr h ts]

end

end Semant
